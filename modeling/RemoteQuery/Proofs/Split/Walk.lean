import RemoteQuery.Proofs.Split.SlotTable
import RemoteQuery.Proofs.Term.Position

/-!
# The walk over a selector's body

The walk opens every node from the body down to a leaf. The positions of the leaves are the cuts:
no cut lies below another or in a nested lambda, and a node outside the cuts that mentions the root
and is in no nested lambda is opened. The root is captured where it is free in a nested lambda
outside the cuts. The leaves of a body are its cuts and, when the root is captured, the root itself.
-/

namespace RemoteQuery.Splitter

variable {s : Splitter} {t : Term}

inductive Placed (s : Splitter) (t : Term) : Placement → Prop
  | free (hm : t.mentions s.root.name = false) : Placed s t .free
  | captured (hm : t.mentions s.root.name = true) (hl : t.lambda?.isSome = true) :
    Placed s t .captured
  | leaf (hm : t.mentions s.root.name = true) (hl : t.lambda? = none) {r : Rendered}
    (hr : s.render t = .ok r) (hc : s.clientUse = .allowed → r.prefersLocal = false) :
    Placed s t (.leaf r.text)
  | faulty (hm : t.mentions s.root.name = true) (hl : t.lambda? = none) {why : Fault}
    (hr : s.render t = .error why) : Placed s t (.opened (some why))
  | deferred (hm : t.mentions s.root.name = true) (hl : t.lambda? = none) {r : Rendered}
    (hr : s.render t = .ok r) (hc : s.clientUse = .allowed) (hp : r.prefersLocal = true) :
    Placed s t (.opened none)

theorem placed (s : Splitter) (t : Term) : Placed s t (s.place t) := by
  rw [place]
  cases hm : t.mentions s.root.name with
  | false => exact .free hm
  | true =>
    cases hl : t.lambda? with
    | some body => exact .captured hm (by rw [hl]; rfl)
    | none =>
      cases hr : s.render t with
      | error why => exact .faulty hm hl hr
      | ok r =>
        by_cases hd : (r.prefersLocal && decide (s.clientUse = .allowed)) = true
        · obtain ⟨hp, hc⟩ : r.prefersLocal = true ∧ s.clientUse = .allowed := by simpa using hd
          simpa [hd] using Placed.deferred hm hl hr hc hp
        · have hc : s.clientUse = .allowed → r.prefersLocal = false := by
            intro hc
            simpa [hc] using hd
          simpa [hd] using Placed.leaf hm hl hr hc

theorem mentions_eq_false_of_place (h : s.place t = .free) : t.mentions s.root.name = false := by
  have hp := s.placed t
  rw [h] at hp
  cases hp with
  | free hm => exact hm

theorem lambda?_of_place_captured (h : s.place t = .captured) : t.lambda?.isSome = true := by
  have hp := s.placed t
  rw [h] at hp
  cases hp with
  | captured _ hl => exact hl

theorem lambda?_of_place_opened {why : Option Fault} (h : s.place t = .opened why) :
    t.lambda? = none := by
  have hp := s.placed t
  rw [h] at hp
  cases hp with
  | faulty _ hl _ => exact hl
  | deferred _ hl _ _ _ => exact hl

theorem render_root (s : Splitter) : s.render (.param s.root) = .ok (.plain rootText) := by
  rw [render, Dialect.render]
  simp [rootText]

theorem place_param (s : Splitter) (q : Param) :
    s.place (.param q) = if q.name = s.root.name then .leaf rootText else .free := by
  by_cases h : q.name = s.root.name
  · simp [place, render, Dialect.render, Rendered.plain, Term.lambda?, rootText, h]
  · simp [place, h]

/-- A leaf stands at the position and every node on the way is opened. -/
def IsCut (s : Splitter) : Term → List Nat → Prop
  | t, [] => ∃ text, s.place t = .leaf text
  | t, i :: p => (∃ why, s.place t = .opened why) ∧ ∃ c, t.children[i]? = some c ∧ s.IsCut c p

def InCut (s : Splitter) (t : Term) (p : List Nat) : Prop := ∃ q, q <+: p ∧ s.IsCut t q

/-- The root is free at the position, in a nested lambda outside the cuts. -/
def CapturedAt (s : Splitter) (t : Term) (p : List Nat) : Prop :=
  t.FreeAt s.root.name p ∧ t.UnderLambda p ∧ ¬ s.InCut t p

theorem inCut_of_leaf {text : String} (h : s.place t = .leaf text) (p : List Nat) : s.InCut t p :=
  ⟨[], List.nil_prefix, text, h⟩

theorem inCut_cons_of_opened {why : Option Fault} (h : s.place t = .opened why) {i : Nat}
    {p : List Nat} : s.InCut t (i :: p) ↔ ∃ c, t.children[i]? = some c ∧ s.InCut c p := by
  constructor
  · intro hin
    obtain ⟨q, hq, hcut⟩ := hin
    cases q with
    | nil =>
      obtain ⟨text, hl⟩ := hcut
      rw [h] at hl
      cases hl
    | cons j q =>
      obtain ⟨rfl, hqp⟩ := List.cons_prefix_cons.1 hq
      obtain ⟨-, c, hc, hcut⟩ := hcut
      exact ⟨c, hc, q, hqp, hcut⟩
  · intro hin
    obtain ⟨c, hc, q, hq, hcut⟩ := hin
    exact ⟨i :: q, List.cons_prefix_cons.2 ⟨rfl, hq⟩, ⟨why, h⟩, c, hc, hcut⟩

theorem not_inCut_of_captured (h : s.place t = .captured) (p : List Nat) : ¬ s.InCut t p := by
  intro hin
  obtain ⟨q, -, hcut⟩ := hin
  cases q with
  | nil =>
    obtain ⟨text, hl⟩ := hcut
    rw [h] at hl
    cases hl
  | cons i q =>
    obtain ⟨⟨why, ho⟩, -⟩ := hcut
    rw [h] at ho
    cases ho

theorem capturedAt_of_captured (h : s.place t = .captured) {p : List Nat} :
    s.CapturedAt t p ↔ t.FreeAt s.root.name p := by
  refine ⟨fun hc => hc.1, fun hf => ⟨hf, ?_, not_inCut_of_captured h p⟩⟩
  have hl := lambda?_of_place_captured h
  cases p with
  | nil =>
    obtain ⟨q, rfl, -⟩ := Term.isParamNamed_iff.1 hf
    cases hl
  | cons i p => exact Or.inl hl

theorem capturedAt_cons_of_opened {why : Option Fault} (h : s.place t = .opened why) {i : Nat}
    {p : List Nat} : s.CapturedAt t (i :: p) ↔ ∃ c, t.children[i]? = some c ∧ s.CapturedAt c p := by
  have hl := lambda?_of_place_opened h
  constructor
  · intro hcap
    obtain ⟨⟨-, c, hc, hf⟩, hu, hn⟩ := hcap
    refine ⟨c, hc, hf, ?_, fun hi => hn ((inCut_cons_of_opened h).2 ⟨c, hc, hi⟩)⟩
    rcases hu with hu | ⟨d, hd, hu⟩
    · simp [hl] at hu
    · obtain rfl : c = d := Option.some.inj (hc.symm.trans hd)
      exact hu
  · intro hcap
    obtain ⟨c, hc, hf, hu, hn⟩ := hcap
    refine ⟨⟨Term.hides_eq_false_of_lambda?_eq_none hl _, c, hc, hf⟩, Or.inr ⟨c, hc, hu⟩, ?_⟩
    intro hi
    obtain ⟨d, hd, hi⟩ := (inCut_cons_of_opened h).1 hi
    obtain rfl : c = d := Option.some.inj (hc.symm.trans hd)
    exact hn hi

theorem not_capturedAt_of_leaf {text : String} (h : s.place t = .leaf text) (p : List Nat) :
    ¬ s.CapturedAt t p := fun hc => hc.2.2 (inCut_of_leaf h p)

theorem not_capturedAt_of_free (h : s.place t = .free) (p : List Nat) : ¬ s.CapturedAt t p := by
  intro hc
  have hm := (Term.mentions_iff_exists_freeAt s.root.name t).2 ⟨p, hc.1⟩
  rw [mentions_eq_false_of_place h] at hm
  cases hm

theorem IsCut.prefix_eq {p q : List Nat} (hp : s.IsCut t p) (hq : s.IsCut t q) (h : p <+: q) :
    p = q := by
  induction p generalizing t q with
  | nil =>
    cases q with
    | nil => rfl
    | cons i q =>
      obtain ⟨text, hl⟩ := hp
      obtain ⟨⟨why, ho⟩, -⟩ := hq
      rw [hl] at ho
      cases ho
  | cons i p ih =>
    obtain ⟨q, rfl⟩ := h
    obtain ⟨-, c, hc, hp⟩ := hp
    obtain ⟨-, d, hd, hq⟩ := hq
    obtain rfl : c = d := Option.some.inj (hc.symm.trans hd)
    exact congrArg (i :: ·) (ih hp hq (List.prefix_append p q))

theorem IsCut.not_underLambda {p : List Nat} (h : s.IsCut t p) : ¬ t.UnderLambda p := by
  induction p generalizing t with
  | nil => exact id
  | cons i p ih =>
    obtain ⟨⟨why, ho⟩, c, hc, hcut⟩ := h
    intro hunder
    rcases hunder with hl | ⟨d, hd, hu⟩
    · simp [lambda?_of_place_opened ho] at hl
    · obtain rfl : c = d := Option.some.inj (hc.symm.trans hd)
      exact ih hcut hu

theorem IsCut.at? {p : List Nat} (h : s.IsCut t p) :
    ∃ e text, t.at? p = some e ∧ s.place e = .leaf text := by
  induction p generalizing t with
  | nil =>
    obtain ⟨text, hl⟩ := h
    exact ⟨t, text, rfl, hl⟩
  | cons i p ih =>
    obtain ⟨-, c, hc, hcut⟩ := h
    obtain ⟨e, text, he, hl⟩ := ih hcut
    exact ⟨e, text, Term.at?_cons_eq_some.2 ⟨c, hc, he⟩, hl⟩

theorem mentions_of_at? {name : String} {e : Term} {p : List Nat} (he : t.at? p = some e)
    (hu : ¬ t.UnderLambda p) (hm : e.mentions name = true) : t.mentions name = true := by
  induction p generalizing t with
  | nil =>
    obtain rfl := Option.some.inj he
    exact hm
  | cons i p ih =>
    obtain ⟨c, hc, he⟩ := Term.at?_cons_eq_some.1 he
    have hl := Term.lambda?_eq_none_of_not_underLambda hu
    refine (Term.mentions_iff name t).2 (Or.inr ⟨Term.hides_eq_false_of_lambda?_eq_none hl _, c,
      List.mem_of_getElem? hc, ih he fun h => hu (Or.inr ⟨c, hc, h⟩)⟩)

theorem mem_leaves_of_opened {why : Option Fault} (h : s.place t = .opened why) {slot : Slot} :
    slot ∈ s.leaves t ↔ ∃ (i : Nat) (c : Term), t.children[i]? = some c ∧ slot ∈ s.leaves c := by
  rw [leaves_eq, h]
  simp only [List.mem_flatMap]
  constructor
  · intro hmem
    obtain ⟨c, hc, hs⟩ := hmem
    obtain ⟨i, hi⟩ := List.getElem?_of_mem hc
    exact ⟨i, c, hi, hs⟩
  · intro hmem
    obtain ⟨i, c, hi, hs⟩ := hmem
    exact ⟨c, List.mem_of_getElem? hi, hs⟩

theorem mem_leaves_of_isCut {p : List Nat} {e : Term} {text : String} (h : s.IsCut t p)
    (he : t.at? p = some e) (hl : s.place e = .leaf text) : ⟨text, e⟩ ∈ s.leaves t := by
  induction p generalizing t with
  | nil =>
    obtain rfl := Option.some.inj he
    rw [leaves_eq, hl]
    exact List.mem_singleton.2 rfl
  | cons i p ih =>
    obtain ⟨⟨why, ho⟩, c, hc, hcut⟩ := h
    obtain ⟨d, hd, he⟩ := Term.at?_cons_eq_some.1 he
    obtain rfl : c = d := Option.some.inj (hc.symm.trans hd)
    exact (mem_leaves_of_opened ho).2 ⟨i, c, hc, ih hcut he⟩

theorem mem_leaves_of_capturedAt {p : List Nat} (h : s.CapturedAt t p) :
    ⟨rootText, .param s.root⟩ ∈ s.leaves t := by
  induction p generalizing t with
  | nil => exact h.2.1.elim
  | cons i p ih =>
    have hp := s.placed t
    generalize hpl : s.place t = pl at hp
    cases hp with
    | free _ => exact absurd h (not_capturedAt_of_free hpl _)
    | captured _ _ =>
      rw [leaves_eq, hpl]
      exact List.mem_singleton.2 rfl
    | leaf _ _ _ _ => exact absurd h (not_capturedAt_of_leaf hpl _)
    | faulty _ _ _ | deferred _ _ _ _ _ =>
      obtain ⟨c, hc, h⟩ := (capturedAt_cons_of_opened hpl).1 h
      exact (mem_leaves_of_opened hpl).2 ⟨i, c, hc, ih h⟩

theorem isCut_or_captured_of_mem_leaves {slot : Slot} (h : slot ∈ s.leaves t) :
    (∃ p, s.IsCut t p ∧ t.at? p = some slot.term ∧ s.place slot.term = .leaf slot.text) ∨
      slot = ⟨rootText, .param s.root⟩ ∧ ∃ p, s.CapturedAt t p := by
  induction t using Term.inductionOn with
  | step t ih =>
    have hp := s.placed t
    generalize hpl : s.place t = pl at hp
    cases hp with
    | free _ => rw [leaves_eq, hpl] at h; cases h
    | captured hm _ =>
      rw [leaves_eq, hpl] at h
      obtain ⟨p, hf⟩ := (Term.mentions_iff_exists_freeAt _ t).1 hm
      exact Or.inr ⟨List.mem_singleton.1 h, p, (capturedAt_of_captured hpl).2 hf⟩
    | leaf _ _ _ _ =>
      rw [leaves_eq, hpl] at h
      obtain rfl := List.mem_singleton.1 h
      exact Or.inl ⟨[], ⟨_, hpl⟩, rfl, hpl⟩
    | faulty _ _ _ | deferred _ _ _ _ _ =>
      obtain ⟨i, c, hc, h⟩ := (mem_leaves_of_opened hpl).1 h
      rcases ih c (List.mem_of_getElem? hc) h with ⟨p, hcut, he, hl⟩ | ⟨hroot, p, hcap⟩
      · exact Or.inl ⟨i :: p, ⟨⟨_, hpl⟩, c, hc, hcut⟩, Term.at?_cons_eq_some.2 ⟨c, hc, he⟩, hl⟩
      · exact Or.inr ⟨hroot, i :: p, (capturedAt_cons_of_opened hpl).2 ⟨c, hc, hcap⟩⟩

theorem render_of_place_leaf {text : String} (h : s.place t = .leaf text) :
    ∃ r, s.render t = .ok r ∧ r.text = text ∧ (s.clientUse = .allowed → r.prefersLocal = false) := by
  have hp := s.placed t
  rw [h] at hp
  cases hp with
  | leaf _ _ hr hc => exact ⟨_, hr, rfl, hc⟩

theorem render_of_mem_leaves {slot : Slot} (h : slot ∈ s.leaves t) :
    ∃ r, s.render slot.term = .ok r ∧ r.text = slot.text ∧
      (s.clientUse = .allowed → r.prefersLocal = false) := by
  rcases isCut_or_captured_of_mem_leaves h with ⟨p, -, -, hl⟩ | ⟨rfl, -⟩
  · exact render_of_place_leaf hl
  · exact ⟨_, s.render_root, rfl, fun _ => rfl⟩

end RemoteQuery.Splitter
