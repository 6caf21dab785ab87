import Mathlib.Data.Set.Card
import RemoteQuery.Proofs.Term.Freshness

/-!
# Used names

A term uses the names of the parameters that stand in it and of those that its lambdas bind. They are the
names that are collected from it, and finitely many. The candidates for a fresh name differ from each other,
so one of them is not used, and the search for it tries no more candidates than there are used names.
-/

namespace RemoteQuery.Term

variable {t : Term} {name : String}

/-- A parameter of that name stands somewhere in the term, or a lambda somewhere in it binds one. -/
def Uses (t : Term) (name : String) : Prop :=
  (∃ p q, t.at? p = some (.param q) ∧ q.name = name) ∨
    ∃ p params body, t.at? p = some (.lambda params body) ∧ ∃ q ∈ params, q.name = name

theorem mem_ownNames_iff : name ∈ t.ownNames ↔
    (∃ q, t = .param q ∧ q.name = name) ∨
      ∃ params body, t = .lambda params body ∧ ∃ q ∈ params, q.name = name := by
  cases t <;> simp [ownNames, eq_comm]

theorem mem_names_iff_exists_at? : name ∈ t.names ↔ ∃ p u, t.at? p = some u ∧ name ∈ u.ownNames := by
  induction t using inductionOn with
  | step t ih =>
    rw [names_eq, List.mem_append, List.mem_flatMap]
    constructor
    · rintro (hown | ⟨c, hc, hm⟩)
      · exact ⟨[], t, rfl, hown⟩
      · obtain ⟨p, u, hu, hown⟩ := (ih c hc).1 hm
        obtain ⟨i, hi⟩ := List.getElem?_of_mem hc
        exact ⟨i :: p, u, at?_cons_eq_some.2 ⟨c, hi, hu⟩, hown⟩
    · rintro ⟨p, u, hu, hown⟩
      cases p with
      | nil =>
        obtain rfl := Option.some.inj hu
        exact Or.inl hown
      | cons i p =>
        obtain ⟨c, hi, hu⟩ := at?_cons_eq_some.1 hu
        have hc := List.mem_of_getElem? hi
        exact Or.inr ⟨c, hc, (ih c hc).2 ⟨p, u, hu, hown⟩⟩

theorem mem_names_iff : name ∈ t.names ↔ t.Uses name := by
  rw [mem_names_iff_exists_at?]
  constructor
  · rintro ⟨p, u, hu, hown⟩
    rcases mem_ownNames_iff.1 hown with ⟨q, rfl, hq⟩ | ⟨params, body, rfl, hq⟩
    · exact Or.inl ⟨p, q, hu, hq⟩
    · exact Or.inr ⟨p, params, body, hu, hq⟩
  · rintro (⟨p, q, hu, hq⟩ | ⟨p, params, body, hu, hq⟩)
    · exact ⟨p, _, hu, mem_ownNames_iff.2 (Or.inl ⟨q, rfl, hq⟩)⟩
    · exact ⟨p, _, hu, mem_ownNames_iff.2 (Or.inr ⟨params, body, rfl, hq⟩)⟩

theorem ncard_uses (t : Term) : {name | t.Uses name}.ncard = t.names.toFinset.card := by
  rw [← Set.ncard_coe_finset]
  congr 1
  ext name
  simp [mem_names_iff]

theorem numbered_ne (index : Nat) : numbered index ≠ "t" := by
  intro he
  have hempty : String.ofList (Digits.ofNat index) = "" := (String.append_right_inj "t").1 he
  exact Digits.ofNat_ne_nil index (String.ofList_injective hempty)

theorem lt_ncard_uses {count : Nat} (ht : t.Uses "t") (hall : ∀ j < count, t.Uses (numbered j)) :
    count < {name | t.Uses name}.ncard := by
  have hnew : "t" ∉ (Finset.range count).image numbered := by
    simpa using fun j _ => numbered_ne j
  have hused : insert "t" ((Finset.range count).image numbered) ⊆ t.names.toFinset := by
    simpa [Finset.insert_subset_iff, Finset.image_subset_iff, mem_names_iff] using ⟨ht, hall⟩
  calc count < (insert "t" ((Finset.range count).image numbered)).card := by
        rw [Finset.card_insert_of_notMem hnew,
          Finset.card_image_of_injective _ fun _ _ => numbered_injective, Finset.card_range]
        omega
    _ ≤ t.names.toFinset.card := Finset.card_le_card hused
    _ = {name | t.Uses name}.ncard := (ncard_uses t).symm

/-- The fresh name is `t`, or else the first of the numbered candidates, that the term does not use. The
search for it ends: with `t` itself, it tries at most one candidate more than there are used names. -/
theorem freshName_first_unused (t : Term) :
    ¬ t.Uses t.freshName ∧
      (¬ t.Uses "t" ∧ t.freshName = "t" ∨
        t.Uses "t" ∧ ∃ index, t.freshName = numbered index ∧ (∀ j < index, t.Uses (numbered j)) ∧
          Search t.names 0 (index + 1) t.freshName ∧
          index + 1 ≤ {name | t.Uses name}.ncard) := by
  refine ⟨mt mem_names_iff.2 (freshName_not_mem_names t), ?_⟩
  rw [freshName]
  split
  · rename_i ht
    have ht : t.Uses "t" := mem_names_iff.1 ht
    obtain ⟨tries, hsearch⟩ := exists_search t.names 0
    obtain ⟨index, rfl, hname, htaken⟩ := hsearch.exists_eq_numbered
    simp only [Nat.zero_add] at hname htaken
    have hused : ∀ j < index, t.Uses (numbered j) := fun j hj => mem_names_iff.1 (htaken j hj)
    exact Or.inr ⟨ht, index, hname, hused, hsearch, lt_ncard_uses ht hused⟩
  · rename_i ht
    exact Or.inl ⟨mt mem_names_iff.2 ht, rfl⟩

example : freshName (.lambda [⟨"t", .object⟩]
    (.lambda [⟨"t0", .object⟩, ⟨"t2", .object⟩] (.param ⟨"t1", .object⟩))) = "t3" := by cbv

end RemoteQuery.Term
