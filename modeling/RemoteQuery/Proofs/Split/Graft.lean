import RemoteQuery.Proofs.Split.Walk
import RemoteQuery.Proofs.Term.Substitution

/-!
# Grafting

Grafting puts one term in place of each leaf of the walk and another in place of each captured root.
The client's remainder grafts reads of the tuple's items. Whatever is grafted, it stands exactly at
the cuts and at the captured roots; every other node of the body is kept, and none is added.
-/

namespace RemoteQuery.Splitter

variable {s : Splitter} {leaf : String → Ty → Term} {root t : Term}

/-- Puts `leaf` in place of the leaves, by their texts and types, and `root` in place of the captured
root. -/
def graft (s : Splitter) (leaf : String → Ty → Term) (root t : Term) : Term :=
  match s.place t with
  | .free => t
  | .captured => t.replace s.root.name root
  | .leaf text => leaf text t.ty
  | .opened _ => t.withChildren (t.children.attach.map fun c => s.graft leaf root c.1)
termination_by sizeOf t
decreasing_by exact Term.sizeOf_lt_of_mem_children c.2

theorem graft_eq (s : Splitter) (leaf : String → Ty → Term) (root t : Term) :
    s.graft leaf root t = match s.place t with
      | .free => t
      | .captured => t.replace s.root.name root
      | .leaf text => leaf text t.ty
      | .opened _ => t.withChildren (t.children.map (s.graft leaf root)) := by
  rw [graft]; simp

theorem remainder_eq_graft (s : Splitter) (slots : Slots) (tuple : Param) (t : Term) :
    s.remainder slots tuple t =
      s.graft (slots.itemAs tuple) (slots.item tuple rootText s.root.ty) t := by
  induction t using Term.inductionOn with
  | step t ih =>
    rw [remainder_eq, graft_eq]
    cases s.place t with
    | free => rfl
    | captured => rfl
    | leaf text => rfl
    | opened why => exact congrArg t.withChildren (List.map_congr_left ih)

theorem eq_param_of_graft (hl : ∀ text ty q, leaf text ty ≠ .param q) (hr : ∀ q, root ≠ .param q)
    {q : Param} (h : s.graft leaf root t = .param q) : t = .param q := by
  rw [graft_eq] at h
  split at h
  · exact h
  · exact Term.replace_eq_param (hr q) h
  · exact absurd h (hl _ _ _)
  · exact Term.withChildren_eq_param h

theorem at?_graft_cons {why : Option Fault} (h : s.place t = .opened why) (i : Nat) (p : List Nat) :
    (s.graft leaf root t).at? (i :: p) =
      t.children[i]?.bind fun c => (s.graft leaf root c).at? p := by
  rw [graft_eq, h]
  exact Term.at?_withChildren_map_cons t _ i p

theorem at?_graft_of_isCut {p : List Nat} (hp : s.IsCut t p) {e : Term} {text : String}
    (he : t.at? p = some e) (hl : s.place e = .leaf text) :
    (s.graft leaf root t).at? p = some (leaf text e.ty) := by
  induction p generalizing t with
  | nil =>
    obtain rfl := Option.some.inj he
    rw [graft_eq, hl]
    rfl
  | cons i p ih =>
    obtain ⟨⟨why, ho⟩, c, hc, hp⟩ := hp
    obtain ⟨d, hd, he⟩ := Term.at?_cons_eq_some.1 he
    obtain rfl : c = d := Option.some.inj (hc.symm.trans hd)
    rw [at?_graft_cons ho, hc]
    exact ih hp he

theorem at?_graft_of_capturedAt {p : List Nat} (hp : s.CapturedAt t p) :
    (s.graft leaf root t).at? p = some root := by
  induction p generalizing t with
  | nil => exact hp.2.1.elim
  | cons i p ih =>
    have hpl := s.placed t
    generalize hplace : s.place t = pl at hpl
    cases hpl with
    | free _ => exact absurd hp (not_capturedAt_of_free hplace _)
    | captured _ _ =>
      rw [graft_eq, hplace]
      exact Term.at?_replace_of_freeAt hp.1 root
    | leaf _ _ _ _ => exact absurd hp (not_capturedAt_of_leaf hplace _)
    | faulty _ _ _ | deferred _ _ _ _ _ =>
      obtain ⟨c, hc, hp⟩ := (capturedAt_cons_of_opened hplace).1 hp
      rw [at?_graft_cons hplace, hc]
      exact ih hp

theorem at?_graft_of_not_opened (ho : ¬ ∃ why, s.place t = .opened why) {p : List Nat} {e : Term}
    (he : t.at? p = some e) (hcut : ¬ s.InCut t p) (hcap : ¬ s.CapturedAt t p) :
    ∃ u, (s.graft leaf root t).at? p = some u ∧ e.SameNode u := by
  have hpl := s.placed t
  generalize hplace : s.place t = pl at hpl
  rw [graft_eq, hplace]
  cases hpl with
  | free _ => exact ⟨e, he, .refl e⟩
  | captured _ _ =>
    exact Term.at?_replace_of_not_freeAt he (mt (capturedAt_of_captured hplace).2 hcap) root
  | leaf _ _ _ _ => exact absurd (inCut_of_leaf hplace _) hcut
  | faulty _ _ _ | deferred _ _ _ _ _ => exact absurd ⟨_, hplace⟩ ho

theorem at?_graft_of_kept {p : List Nat} {e : Term} (he : t.at? p = some e) (hcut : ¬ s.InCut t p)
    (hcap : ¬ s.CapturedAt t p) : ∃ u, (s.graft leaf root t).at? p = some u ∧ e.SameNode u := by
  induction p generalizing t with
  | nil =>
    by_cases ho : ∃ why, s.place t = .opened why
    · obtain ⟨why, ho⟩ := ho
      obtain rfl := Option.some.inj he
      rw [graft_eq, ho]
      exact ⟨_, rfl, Term.sameNode_withChildren (by simp)⟩
    · exact at?_graft_of_not_opened ho he hcut hcap
  | cons i p ih =>
    by_cases ho : ∃ why, s.place t = .opened why
    · obtain ⟨why, ho⟩ := ho
      obtain ⟨c, hc, hec⟩ := Term.at?_cons_eq_some.1 he
      rw [at?_graft_cons ho, hc]
      exact ih hec (fun hi => hcut ((inCut_cons_of_opened ho).2 ⟨c, hc, hi⟩))
        (fun hi => hcap ((capturedAt_cons_of_opened ho).2 ⟨c, hc, hi⟩))
    · exact at?_graft_of_not_opened ho he hcut hcap

theorem at?_of_at?_graft {p : List Nat} {u : Term} (hu : (s.graft leaf root t).at? p = some u) :
    (∃ e, t.at? p = some e) ∨ s.InCut t p ∨ ∃ q, q <+: p ∧ s.CapturedAt t q := by
  induction p generalizing t with
  | nil => exact Or.inl ⟨t, rfl⟩
  | cons i p ih =>
    have hpl := s.placed t
    generalize hplace : s.place t = pl at hpl
    cases hpl with
    | free _ =>
      rw [graft_eq, hplace] at hu
      exact Or.inl ⟨u, hu⟩
    | captured _ _ =>
      rw [graft_eq, hplace] at hu
      rcases Term.at?_of_at?_replace hu with he | ⟨q, hqp, hf⟩
      · exact Or.inl he
      · exact Or.inr (Or.inr ⟨q, hqp, (capturedAt_of_captured hplace).2 hf⟩)
    | leaf _ _ _ _ => exact Or.inr (Or.inl (inCut_of_leaf hplace _))
    | faulty _ _ _ | deferred _ _ _ _ _ =>
      rw [at?_graft_cons hplace] at hu
      obtain ⟨c, hc, hu⟩ := Option.bind_eq_some_iff.1 hu
      rcases ih hu with ⟨e, he⟩ | hi | ⟨q, hqp, hq⟩
      · exact Or.inl ⟨e, Term.at?_cons_eq_some.2 ⟨c, hc, he⟩⟩
      · exact Or.inr (Or.inl ((inCut_cons_of_opened hplace).2 ⟨c, hc, hi⟩))
      · exact Or.inr (Or.inr ⟨i :: q, List.cons_prefix_cons.2 ⟨rfl, hqp⟩,
          (capturedAt_cons_of_opened hplace).2 ⟨c, hc, hq⟩⟩)

end RemoteQuery.Splitter
