import RemoteQuery.Proofs.Term.Substitution

/-!
# Fresh names

The search for a fresh name tries `t0`, `t1` and so on, and ends with the first candidate that is not
taken. A candidate that is taken may be removed from the list of taken names: later candidates carry larger
numbers, so it is never tried again and the search goes as if nothing were removed. The fresh name of a term
occurs nowhere in it, neither bound nor referenced.
-/

namespace RemoteQuery.Term

def numbered (index : Nat) : String := "t" ++ toString index

theorem numbered_injective {j k : Nat} (h : numbered j = numbered k) : j = k := by
  have hd : String.ofList (Digits.ofNat j) = String.ofList (Digits.ofNat k) :=
    (String.append_right_inj "t").1 h
  exact Digits.ofNat_injective (String.ofList_injective hd)

/-- From a number on, the search tries so many candidates and ends with that name. Nothing is removed from
the taken names. -/
inductive Search (taken : List String) : Nat → Nat → String → Prop
  | ends {index : Nat} (h : numbered index ∉ taken) : Search taken index 1 (numbered index)
  | goesOn {index tries : Nat} {name : String} (h : numbered index ∈ taken)
      (rest : Search taken (index + 1) tries name) : Search taken index (tries + 1) name

namespace Search

variable {taken other : List String} {index tries : Nat} {name : String}

theorem congr (h : Search taken index tries name)
    (hsame : ∀ k, index ≤ k → (numbered k ∈ taken ↔ numbered k ∈ other)) :
    Search other index tries name := by
  induction h with
  | @ends index hnew => exact ends (mt (hsame index (Nat.le_refl index)).2 hnew)
  | @goesOn index tries name hold rest ih =>
    exact goesOn ((hsame index (Nat.le_refl index)).1 hold) (ih fun k hk => hsame k (by omega))

theorem not_mem (h : Search taken index tries name) : name ∉ taken := by
  induction h with
  | ends hnew => exact hnew
  | goesOn hold rest ih => exact ih

theorem exists_eq_numbered (h : Search taken index tries name) :
    ∃ k, tries = k + 1 ∧ name = numbered (index + k) ∧ ∀ j < k, numbered (index + j) ∈ taken := by
  induction h with
  | ends hnew => exact ⟨0, rfl, rfl, fun j hj => absurd hj (Nat.not_lt_zero j)⟩
  | @goesOn index tries name hold rest ih =>
    obtain ⟨k, rfl, hname, htaken⟩ := ih
    refine ⟨k + 1, rfl, by rw [hname, Nat.add_right_comm, Nat.add_assoc], fun j hj => ?_⟩
    cases j with
    | zero => exact hold
    | succ j =>
      have hj := htaken j (by omega)
      rwa [Nat.add_right_comm, Nat.add_assoc] at hj

end Search

theorem exists_search (taken : List String) (index : Nat) :
    ∃ tries, Search taken index tries (freshNumbered taken index) := by
  fun_induction freshNumbered taken index with
  | case1 taken index candidate hused ih =>
    obtain ⟨tries, rest⟩ := ih
    refine ⟨tries + 1, .goesOn hused (rest.congr fun k hk => List.mem_erase_of_ne fun he => ?_)⟩
    have := numbered_injective he
    omega
  | case2 taken index candidate hunused => exact ⟨1, .ends hunused⟩

theorem freshName_not_mem_names (t : Term) : t.freshName ∉ t.names := by
  rw [freshName]
  split
  · obtain ⟨tries, h⟩ := exists_search t.names 0
    exact h.not_mem
  · assumption

end RemoteQuery.Term
