import RemoteQuery.Proofs.Split.Outcome
import RemoteQuery.Proofs.Split.Refusal
import RemoteQuery.Proofs.Wire.Support

/-!
# Splits with and without the client

A split may be asked to leave nothing to the client. Where that succeeds, the split that may use the
client has no reason to: it opens more parts, those that prefer the client, but everything below a part
with a text has a text itself. Where no node prefers the client, both splits place every part alike, and
so they are one split.
-/

namespace RemoteQuery

namespace Splitter

variable {s : Splitter} {t : Term}

theorem reasons_eq_nil_of_render {r : Rendered} (h : s.render t = .ok r) : s.reasons t = [] := by
  induction t using Term.inductionOn generalizing r with
  | step t ih =>
    rw [reasons_eq]
    have hp := s.placed t
    generalize s.place t = pl at hp
    cases hp with
    | free _ =>
      dsimp only
      rw [obstacles_eq, h]
      exact ite_self []
    | captured _ _ => rfl
    | leaf _ _ _ _ => rfl
    | faulty _ _ hr =>
      rw [h] at hr
      cases hr
    | deferred _ _ _ _ _ =>
      have hc : t.children.flatMap s.reasons = [] := by
        rw [List.flatMap_eq_nil_iff]
        intro c hc
        obtain ⟨r', hr'⟩ := Dialect.exists_render_of_mem_children h hc
        exact ih c hc hr'
      dsimp only
      rw [hc]
      exact ite_self []

theorem reasons_eq_nil_of_captures (h : s.Captures t) : s.reasons t = [] := by
  obtain ⟨hl, hm⟩ := h
  have hp : s.place t = .captured := by
    rw [place, hm, hl]
    rfl
  rw [reasons_eq, hp]

theorem reasons_allowed_eq_nil (ha : s.clientUse = .allowed)
    (h : ∀ u ∈ t.components, (∃ r, s.render u = .ok r) ∨ s.Captures u) : s.reasons t = [] := by
  induction t using Term.inductionOn with
  | step t ih =>
    by_cases hc : t.isConstruction = true
    · have hinner : t.children.flatMap s.reasons = [] := by
        rw [List.flatMap_eq_nil_iff]
        exact fun c hct => ih c hct ((Term.forall_components_of_isConstruction hc).1 h c hct)
      rw [reasons_eq]
      cases s.place t with
      | free => simp [ha]
      | captured => rfl
      | leaf text => rfl
      | opened why => simp [hinner, hc]
    · rcases (Term.forall_components_of_not_isConstruction hc).1 h with ⟨r, hr⟩ | hcap
      · exact reasons_eq_nil_of_render hr
      · exact reasons_eq_nil_of_captures hcap

theorem reasons_of_split {body : Term} {result : Split}
    (h : s.dialect.split s.clientUse (.lambda [s.root] body) = .ok result) :
    result.reasons = s.reasons body := by
  rw [split_eq] at h
  split at h
  · cases h
  · split at h
    · cases h
      rfl
    · cases h
      rfl

section Alike

variable {s' : Splitter}

theorem place_eq_of_every (hd : s'.dialect = s.dialect) (hr : s'.root = s.root)
    (h : t.Every fun u => s.dialect.prefersClient u = false) : s'.place t = s.place t := by
  have hrender : s'.render t = s.render t := by rw [render, render, hd, hr]
  rw [place, place, hr, hrender]
  cases hs : s.render t with
  | error why => rfl
  | ok r =>
    have hp : r.prefersLocal = false := (Dialect.prefersLocal_eq_false_iff hs).2 h
    simp [hp]

theorem leaves_eq_of_every (hr : s'.root = s.root) (h : t.Every fun u => s'.place u = s.place u) :
    s'.leaves t = s.leaves t := by
  induction t using Term.inductionOn with
  | step t ih =>
    obtain ⟨hself, hchildren⟩ := Term.every_iff.1 h
    rw [leaves_eq, leaves_eq, hself, hr]
    cases s.place t with
    | free => rfl
    | captured => rfl
    | leaf text => rfl
    | opened why => exact List.flatMap_congr fun c hc => ih c hc (hchildren c hc)

theorem remainder_eq_of_every (hr : s'.root = s.root)
    (h : t.Every fun u => s'.place u = s.place u) (slots : Slots) (tuple : Param) :
    s'.remainder slots tuple t = s.remainder slots tuple t := by
  induction t using Term.inductionOn with
  | step t ih =>
    obtain ⟨hself, hchildren⟩ := Term.every_iff.1 h
    rw [remainder_eq, remainder_eq, hself, hr]
    cases s.place t with
    | free => rfl
    | captured => rfl
    | leaf text => rfl
    | opened why =>
      exact congrArg t.withChildren (List.map_congr_left fun c hc => ih c hc (hchildren c hc))

theorem split_eq_of_every (s s' : Splitter) {body : Term} (hd : s'.dialect = s.dialect) (hr : s'.root = s.root)
    (h : body.Every fun u => s.dialect.prefersClient u = false) (hs : s.reasons body = [])
    (hs' : s'.reasons body = []) :
    s'.dialect.split s'.clientUse (.lambda [s'.root] body) =
      s.dialect.split s.clientUse (.lambda [s.root] body) := by
  have hplace : body.Every fun u => s'.place u = s.place u := fun p u hu =>
    place_eq_of_every hd hr (h.below p u hu)
  have hslots : s'.slots body = s.slots body := by
    rw [slots, slots, leaves_eq_of_every hr hplace]
  have htuple : s'.tuple body = s.tuple body := by
    rw [tuple, tuple, hslots, hr]
  have hclient : s'.clientBody body = s.clientBody body := by
    rw [clientBody, clientBody, hslots, htuple, remainder_eq_of_every hr hplace]
  rw [split_eq, split_eq, hs, hs', hslots, htuple, hclient, hr]
  simp

end Alike
end Splitter

namespace Dialect

/-- A split that is accepted without the client has no reason to use it, and is the split that may use
the client unless a node prefers it. -/
theorem forbidden_split_refines_allowed {d : Dialect} {root : Param} {body : Term} {result : Split}
    (h : d.split .forbidden (.lambda [root] body) = .ok result) :
    (∃ other, d.split .allowed (.lambda [root] body) = .ok other ∧ other.reasons = []) ∧
      ((body.Every fun u => d.prefersClient u = false) →
        d.split .allowed (.lambda [root] body) = .ok result) := by
  have hf : (⟨d, .forbidden, root⟩ : Splitter).reasons body = [] :=
    (forbidden_split_ok_iff d root body).1 ⟨result, h⟩
  have hparts := (Splitter.reasons_eq_nil_iff (s := ⟨d, .forbidden, root⟩) rfl body).1 hf
  have ha : (⟨d, .allowed, root⟩ : Splitter).reasons body = [] :=
    Splitter.reasons_allowed_eq_nil rfl hparts
  constructor
  · obtain ⟨other, hother⟩ : ∃ other, d.split .allowed (.lambda [root] body) = .ok other :=
      Splitter.exists_split_of_allowed (s := ⟨d, .allowed, root⟩) rfl
    exact ⟨other, hother, (Splitter.reasons_of_split hother).trans ha⟩
  · intro hall
    exact (Splitter.split_eq_of_every ⟨d, .forbidden, root⟩ ⟨d, .allowed, root⟩ rfl rfl hall hf
      ha).trans h

def personCard : Term :=
  .tuple [personName, .call (some personAge) ⟨"Object", "ToString", [], .scalar .string⟩ [],
    .lambda [⟨"o", .object⟩] (.param person)]

def personPair : Term := .tuple [personName, .lambda [⟨"o", .object⟩] (.param person)]

theorem prefersClient_verbatim (u : Term) : Dialect.verbatim.prefersClient u = false := by
  cases u with
  | call target method args =>
    rw [prefersClient]
    cases CallForm.of method (target.toList ++ args) <;> rfl
  | _ => rfl

theorem forbidden_split_refines_allowed_personCard :
    (∃ result, objectDialect.split .forbidden (.lambda [person] personCard) = .ok result ∧
      ∃ other, objectDialect.split .allowed (.lambda [person] personCard) = .ok other ∧
        other.reasons = []) ∧
      ∃ result, Dialect.verbatim.split .forbidden (.lambda [person] personPair) = .ok result ∧
        (personPair.Every fun u => Dialect.verbatim.prefersClient u = false) ∧
        Dialect.verbatim.split .allowed (.lambda [person] personPair) = .ok result := by
  obtain ⟨card, hcard, -⟩ := exists_split_of_any objectDialect .forbidden
    (.lambda [person] personCard) (fun r => r.arity == 3) (by decide +kernel)
  obtain ⟨pair, hpair, -⟩ := exists_split_of_any Dialect.verbatim .forbidden
    (.lambda [person] personPair) (fun r => r.arity == 2) (by decide +kernel)
  have hall : personPair.Every fun u => Dialect.verbatim.prefersClient u = false := fun _ u _ =>
    prefersClient_verbatim u
  exact ⟨⟨card, hcard, (forbidden_split_refines_allowed hcard).1⟩,
    pair, hpair, hall, (forbidden_split_refines_allowed hpair).2 hall⟩

end Dialect
end RemoteQuery
