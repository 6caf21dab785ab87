import RemoteQuery.Proofs.Split.Restoration
import RemoteQuery.Proofs.Wire.Preference

/-!
# The cuts are as high as they can be

A part can be sent when it mentions the root, is no lambda, has a wire text and, while the client may
evaluate, needs no mapping that prefers the client. The cuts of a body are the topmost parts that can
be sent and are in no nested lambda. So the client keeps no part that it could have asked for, and
the server gets no part that it should not evaluate, also where leaves share a slot.
-/

namespace RemoteQuery.Splitter

variable {s : Splitter} {t e : Term} {p : List Nat}

def Sendable (s : Splitter) (e : Term) : Prop :=
  e.mentions s.root.name = true ∧ e.lambda? = none ∧
    ∃ r, s.render e = .ok r ∧ (s.clientUse = .allowed → r.prefersLocal = false)

theorem sendable_iff : s.Sendable e ↔ ∃ text, s.place e = .leaf text := by
  constructor
  · intro hs
    obtain ⟨hm, hl, r, hr, hc⟩ := hs
    have hp := s.placed e
    generalize s.place e = pl at hp
    cases hp with
    | free hf => simp [hm] at hf
    | captured _ hs => simp [hl] at hs
    | leaf _ _ _ _ => exact ⟨_, rfl⟩
    | faulty _ _ hf =>
      rw [hr] at hf
      cases hf
    | deferred _ _ hd ha hp =>
      rw [hr] at hd
      cases hd
      rw [hc ha] at hp
      cases hp
  · intro hleaf
    obtain ⟨text, h⟩ := hleaf
    have hp := s.placed e
    rw [h] at hp
    cases hp with
    | leaf hm hl hr hc => exact ⟨hm, hl, _, hr, hc⟩

theorem not_sendable_of_place_opened {why : Option Fault} (h : s.place t = .opened why) :
    ¬ s.Sendable t := by
  intro hs
  obtain ⟨text, hl⟩ := sendable_iff.1 hs
  rw [h] at hl
  cases hl

theorem place_opened_of_not_sendable (hm : t.mentions s.root.name = true) (hl : t.lambda? = none)
    (hs : ¬ s.Sendable t) : ∃ why, s.place t = .opened why := by
  have hp := s.placed t
  generalize hpl : s.place t = pl at hp
  cases hp with
  | free hf => simp [hm] at hf
  | captured _ hc => simp [hl] at hc
  | leaf _ _ _ _ => exact absurd (sendable_iff.2 ⟨_, hpl⟩) hs
  | faulty _ _ _ => exact ⟨_, rfl⟩
  | deferred _ _ _ _ _ => exact ⟨_, rfl⟩

theorem not_sendable_of_not_inCut (h : ¬ s.InCut t p) : ¬ s.Sendable t := by
  intro hs
  obtain ⟨text, hl⟩ := sendable_iff.1 hs
  exact h (inCut_of_leaf hl p)

theorem opened_of_not_inCut (he : t.at? p = some e) (hm : e.mentions s.root.name = true)
    (hl : e.lambda? = none) (hu : ¬ t.UnderLambda p) (hn : ¬ s.InCut t p) :
    ∃ why, s.place e = .opened why := by
  have hns := not_sendable_of_not_inCut hn
  induction p generalizing t with
  | nil =>
    obtain rfl := Option.some.inj he
    exact place_opened_of_not_sendable hm hl hns
  | cons i p ih =>
    obtain ⟨c, hc, hec⟩ := Term.at?_cons_eq_some.1 he
    have hmt := mentions_of_at? he hu hm
    have hlt := Term.lambda?_eq_none_of_not_underLambda hu
    obtain ⟨why, ho⟩ := place_opened_of_not_sendable hmt hlt hns
    have hnc : ¬ s.InCut c p := fun h => hn ((inCut_cons_of_opened ho).2 ⟨c, hc, h⟩)
    exact ih hec (fun h => hu (Or.inr ⟨c, hc, h⟩)) hnc (not_sendable_of_not_inCut hnc)

theorem render_of_place_opened {why : Option Fault} (h : s.place t = .opened why) :
    (∃ fault, s.render t = .error fault) ∨
      s.clientUse = .allowed ∧ ∃ r, s.render t = .ok r ∧ r.prefersLocal = true := by
  have hp := s.placed t
  rw [h] at hp
  cases hp with
  | faulty _ _ hr => exact Or.inl ⟨_, hr⟩
  | deferred _ _ hr hc hp => exact Or.inr ⟨hc, _, hr, hp⟩

theorem IsCut.not_sendable_above (h : s.IsCut t p) {q : List Nat} (hq : q <+: p) (hne : q ≠ p)
    (he : t.at? q = some e) : ¬ s.Sendable e := by
  induction q generalizing t p with
  | nil =>
    cases p with
    | nil => exact absurd rfl hne
    | cons i p =>
      obtain ⟨⟨why, ho⟩, -⟩ := h
      obtain rfl := Option.some.inj he
      exact not_sendable_of_place_opened ho
  | cons i q ih =>
    obtain ⟨p, rfl⟩ := hq
    obtain ⟨-, c, hc, h⟩ := h
    obtain ⟨d, hd, he⟩ := Term.at?_cons_eq_some.1 he
    obtain rfl : c = d := Option.some.inj (hc.symm.trans hd)
    exact ih h (List.prefix_append q p) (fun hqp => hne (congrArg (i :: ·) hqp)) he

theorem isCut_iff : s.IsCut t p ↔ ¬ t.UnderLambda p ∧ (∃ e, t.at? p = some e ∧ s.Sendable e) ∧
    ∀ q e, q <+: p → q ≠ p → t.at? q = some e → ¬ s.Sendable e := by
  constructor
  · intro h
    obtain ⟨e, text, he, hl⟩ := h.at?
    exact ⟨h.not_underLambda, ⟨e, he, sendable_iff.2 ⟨text, hl⟩⟩,
      fun _ _ hq hne hu => h.not_sendable_above hq hne hu⟩
  · intro htop
    obtain ⟨hu, ⟨e, he, hs⟩, habove⟩ := htop
    -- the term itself cannot be sent and is no lambda, so the walk goes on below it
    induction p generalizing t with
    | nil =>
      obtain rfl := Option.some.inj he
      exact sendable_iff.1 hs
    | cons i p ih =>
      obtain ⟨c, hc, hec⟩ := Term.at?_cons_eq_some.1 he
      have hl := Term.lambda?_eq_none_of_not_underLambda hu
      have hn : ¬ s.Sendable t := habove [] t List.nil_prefix (by simp) rfl
      have habove' : ∀ q d, q <+: p → q ≠ p → c.at? q = some d → ¬ s.Sendable d :=
        fun q d hq hne hd => habove (i :: q) d (List.cons_prefix_cons.2 ⟨rfl, hq⟩)
          (by simpa using hne) (Term.at?_cons_eq_some.2 ⟨c, hc, hd⟩)
      exact ⟨place_opened_of_not_sendable (mentions_of_at? he hu hs.1) hl hn, c, hc,
        ih (fun h => hu (Or.inr ⟨c, hc, h⟩)) habove' hec⟩

/-- What the client asks for. The cuts are the topmost parts that can be sent, and each is read from
the slot with its text. A part above the cuts has no text, or one that prefers the client while the
client may evaluate. No slot prefers the client in any of its nodes then. -/
structure CutsHigh (s : Splitter) (slots : Slots) (tuple : Param) (body client : Term) : Prop where
  topmost : ∀ p, s.IsCut body p ↔ ¬ body.UnderLambda p ∧
    (∃ e, body.at? p = some e ∧ s.Sendable e) ∧
    ∀ q e, q <+: p → q ≠ p → body.at? q = some e → ¬ s.Sendable e
  cut : ∀ p, s.IsCut body p → ∃ e r, body.at? p = some e ∧ e.mentions s.root.name = true ∧
    e.lambda? = none ∧ s.render e = .ok r ∧ (s.clientUse = .allowed → r.prefersLocal = false) ∧
    (∃ slot ∈ slots, slot.text = r.text) ∧
    client.at? p = some (slots.itemAs tuple r.text e.ty)
  above : ∀ p e, body.at? p = some e → e.mentions s.root.name = true → e.lambda? = none →
    ¬ body.UnderLambda p → ¬ s.InCut body p → (∃ fault, s.render e = .error fault) ∨
      s.clientUse = .allowed ∧ ∃ r, s.render e = .ok r ∧ r.prefersLocal = true
  sent : s.clientUse = .allowed → ∀ slot ∈ slots,
    (∃ r, s.render slot.term = .ok r ∧ r.text = slot.text ∧ r.prefersLocal = false) ∧
      slot.term.Every fun u => s.dialect.prefersClient u = false

theorem cutsHigh_clientBody (s : Splitter) (body : Term) :
    s.CutsHigh (s.slots body) (s.tuple body) body (s.clientBody body) where
  topmost _ := isCut_iff
  cut p hp := by
    obtain ⟨e, text, he, hl⟩ := hp.at?
    obtain ⟨hm, hlam, r, hr, hc⟩ := sendable_iff.2 ⟨text, hl⟩
    obtain ⟨r', hr', rfl, -⟩ := render_of_place_leaf hl
    obtain rfl : r = r' := Except.ok.inj (hr.symm.trans hr')
    obtain ⟨slot, hs⟩ := Slots.exists_slot?_ofList (mem_leaves_of_isCut hp he hl)
    refine ⟨e, r, he, hm, hlam, hr, hc, ⟨slot, Slots.mem_of_slot? hs, Slots.text_of_slot? hs⟩, ?_⟩
    rw [clientBody, remainder_eq_graft]
    exact at?_graft_of_isCut hp he hl
  above p e he hm hl hu hn := by
    obtain ⟨why, ho⟩ := opened_of_not_inCut he hm hl hu hn
    exact render_of_place_opened ho
  sent hc slot hs := by
    obtain ⟨r, hr, ht, hp⟩ := render_of_mem_leaves (Slots.mem_of_mem_ofList hs)
    exact ⟨⟨r, hr, ht, hp hc⟩, (Dialect.prefersLocal_eq_false_iff hr).1 (hp hc)⟩

/-- A split cuts a selector's body at the topmost parts that can be sent. -/
theorem split_cuts_topmost_sendable {s : Splitter} {body : Term} {result : Split}
    (h : s.dialect.split s.clientUse (.lambda [s.root] body) = .ok result) (hn : 0 < result.arity) :
    ∃ tuple client, result.client = .lambda [tuple] client ∧
      s.CutsHigh result.slots tuple body client := by
  obtain rfl := eq_of_split_of_arity_pos h hn
  exact ⟨s.tuple body, s.clientBody body, rfl, cutsHigh_clientBody s body⟩

theorem split_cuts_topmost_sendable_personSummary :
    ∃ result, Dialect.verbatim.split .allowed (.lambda [person] personSummary) = .ok result ∧
      0 < result.arity ∧ ∃ tuple client, result.client = .lambda [tuple] client ∧
        (⟨.verbatim, .allowed, person⟩ : Splitter).CutsHigh result.slots tuple personSummary
          client := by
  obtain ⟨result, h, hn⟩ := exists_split_personSummary
  exact ⟨result, h, hn, split_cuts_topmost_sendable (s := ⟨.verbatim, .allowed, person⟩) h hn⟩

end RemoteQuery.Splitter
