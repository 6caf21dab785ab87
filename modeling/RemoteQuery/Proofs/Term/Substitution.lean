import RemoteQuery.Proofs.Term.Position

/-!
# Substitution

Substitution puts the replacement at exactly the positions where the name is free and keeps every
other node. The names of a term are those of all its nodes, so a name that does not occur in a term
occurs in none of its children.
-/

namespace RemoteQuery.Term

theorem replace_eq (t : Term) (name : String) (r : Term) :
    t.replace name r =
      if t.isParamNamed name then r
      else if t.hides name then t
      else t.withChildren (t.children.map fun c => c.replace name r) := by
  cases t with
  | param q => simp [isParamNamed, hides, withChildren]
  | lambda params body => simp [isParamNamed, hides, children, withChildren]
  | _ =>
    rw [replace_of_children (by simp) (by simp)]
    simp [isParamNamed, hides]

theorem withChildren_eq_param {t : Term} {cs : List Term} {q : Param}
    (h : t.withChildren cs = .param q) : t = .param q := by
  unfold withChildren at h
  split at h <;> first | exact h | cases h

theorem replace_eq_param {t r : Term} {name : String} {q : Param} (hr : r ≠ .param q)
    (h : t.replace name r = .param q) : t = .param q := by
  rw [replace_eq] at h
  split at h
  · exact absurd h hr
  · split at h
    · exact h
    · exact withChildren_eq_param h

theorem at?_replace_of_freeAt {t : Term} {name : String} {p : List Nat} (h : t.FreeAt name p)
    (r : Term) : (t.replace name r).at? p = some r := by
  induction p generalizing t with
  | nil =>
    have hp : t.isParamNamed name = true := h
    rw [replace_eq, if_pos hp]
    rfl
  | cons i p ih =>
    obtain ⟨hh, c, hc, hf⟩ := h
    have hp := isParamNamed_eq_false_of_child hc name
    rw [replace_eq, if_neg (by simp [hp]), if_neg (by simp [hh]), at?_withChildren_map_cons, hc]
    exact ih hf

theorem at?_replace_of_not_freeAt {t u : Term} {name : String} {p : List Nat}
    (hu : t.at? p = some u) (h : ¬ t.FreeAt name p) (r : Term) :
    ∃ v, (t.replace name r).at? p = some v ∧ u.SameNode v := by
  induction p generalizing t with
  | nil =>
    obtain rfl : t = u := Option.some.inj hu
    have hp : ¬ t.isParamNamed name = true := h
    rw [replace_eq, if_neg hp]
    split
    · exact ⟨t, rfl, .refl t⟩
    · exact ⟨_, rfl, sameNode_withChildren (by simp)⟩
  | cons i p ih =>
    obtain ⟨c, hc, hu⟩ := at?_cons_eq_some.1 hu
    have hp := isParamNamed_eq_false_of_child hc name
    rw [replace_eq, if_neg (by simp [hp])]
    split
    · exact ⟨u, at?_cons_eq_some.2 ⟨c, hc, hu⟩, .refl u⟩
    · rename_i hh
      rw [at?_withChildren_map_cons, hc]
      exact ih hu fun hf => h ⟨by simpa using hh, c, hc, hf⟩

theorem at?_of_at?_replace {t v r : Term} {name : String} {p : List Nat}
    (hv : (t.replace name r).at? p = some v) :
    (∃ u, t.at? p = some u) ∨ ∃ q, q <+: p ∧ t.FreeAt name q := by
  induction p generalizing t with
  | nil => exact Or.inl ⟨t, rfl⟩
  | cons i p ih =>
    rw [replace_eq] at hv
    split at hv
    · rename_i hp
      exact Or.inr ⟨[], List.nil_prefix, hp⟩
    · split at hv
      · exact Or.inl ⟨v, hv⟩
      · rename_i hh
        rw [at?_withChildren_map_cons] at hv
        obtain ⟨c, hc, hv⟩ := Option.bind_eq_some_iff.1 hv
        rcases ih hv with ⟨u, hu⟩ | ⟨q, hq, hf⟩
        · exact Or.inl ⟨u, at?_cons_eq_some.2 ⟨c, hc, hu⟩⟩
        · exact Or.inr ⟨i :: q, List.cons_prefix_cons.2 ⟨rfl, hq⟩, by simpa using hh, c, hc, hf⟩

theorem freeAt_nil_of_withChildren {t : Term} {cs : List Term} {name : String}
    (h : (t.withChildren cs).FreeAt name []) : t.FreeAt name [] := by
  obtain ⟨q, hq, hn⟩ := isParamNamed_iff.1 h
  exact isParamNamed_iff.2 ⟨q, withChildren_eq_param hq, hn⟩

theorem freeAt_cons_withChildren_map {t : Term} {f : Term → Term} {name : String} {i : Nat}
    {p : List Nat} : (t.withChildren (t.children.map f)).FreeAt name (i :: p) ↔
      t.hides name = false ∧ ∃ c, t.children[i]? = some c ∧ (f c).FreeAt name p := by
  rw [FreeAt, hides_withChildren, getElem?_children_withChildren_map]
  cases t.children[i]? <;> simp

theorem freeAt_of_freeAt_replace {t r : Term} {name other : String} {p : List Nat}
    (hr : r.mentions other = false) (h : (t.replace name r).FreeAt other p) :
    other ≠ name ∧ t.FreeAt other p := by
  induction p generalizing t with
  | nil =>
    rw [replace_eq] at h
    split at h
    · exact absurd h (not_freeAt_of_mentions_eq_false hr _)
    · rename_i hp
      have hf : t.FreeAt other [] := by
        split at h
        · exact h
        · exact freeAt_nil_of_withChildren h
      exact ⟨fun he => hp (he ▸ hf), hf⟩
  | cons i p ih =>
    rw [replace_eq] at h
    split at h
    · exact absurd h (not_freeAt_of_mentions_eq_false hr _)
    · split at h
      · rename_i hh
        refine ⟨fun he => ?_, h⟩
        obtain ⟨hv, -⟩ := h
        rw [he, hh] at hv
        cases hv
      · obtain ⟨hv, c, hc, hf⟩ := freeAt_cons_withChildren_map.1 h
        obtain ⟨hne, hf⟩ := ih hf
        exact ⟨hne, hv, c, hc, hf⟩

theorem names_subset_of_mem_children {t c : Term} (h : c ∈ t.children) : c.names ⊆ t.names := by
  intro x hx
  rw [names_eq t]
  exact List.mem_append_right _ (List.mem_flatMap.2 ⟨c, h, hx⟩)

theorem name_mem_names_param (q : Param) : q.name ∈ (param q).names := by
  rw [names_eq]
  simp [ownNames]

theorem mem_names_of_hides {t : Term} {name : String} (h : t.hides name = true) :
    name ∈ t.names := by
  cases t with
  | lambda params body =>
    rw [names_eq]
    refine List.mem_append_left _ ?_
    simpa [hides, binds, ownNames] using h
  | _ => simp [hides] at h

end RemoteQuery.Term
