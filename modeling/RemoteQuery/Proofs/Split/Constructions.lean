import RemoteQuery.Proofs.Split.Strictness

/-!
# Splitting a construction

A construction has no text, so it is never sent whole and is no reason itself: its leaves and its
reasons are those of its arguments, one argument after the other. What stands before an argument does
not change what is found in it. So the order of the arguments decides the order of the slots and of the
reasons, and nothing else.
-/

namespace RemoteQuery

def Split.causes : Except Fault Split → List Fault
  | .ok result => result.reasons
  | .error why => why.causes

namespace Splitter

variable {s : Splitter} {t : Term}

theorem causes_split (s : Splitter) (body : Term) :
    Split.causes (s.dialect.split s.clientUse (.lambda [s.root] body)) = s.reasons body := by
  rw [split_eq]
  split
  · exact s.causes_ofCauses_reasons body
  · split <;> rfl

theorem place_of_mentions_eq_false (h : t.mentions s.root.name = false) : s.place t = .free := by
  rw [place, h]
  rfl

theorem place_of_isConstruction (h : t.isConstruction = true) :
    (s.place t = .free ∧ ∀ c ∈ t.children, s.place c = .free) ∨ ∃ why, s.place t = .opened why := by
  have hl := Term.lambda?_of_isConstruction h
  have hp := s.placed t
  generalize s.place t = pl at hp
  cases hp with
  | free hm =>
    refine Or.inl ⟨rfl, fun c hc => place_of_mentions_eq_false (Bool.eq_false_iff.2 fun hcm => ?_)⟩
    refine Bool.eq_false_iff.1 hm ((Term.mentions_iff _ t).2 (Or.inr ⟨?_, c, hc, hcm⟩))
    exact Term.hides_eq_false_of_lambda?_eq_none hl _
  | captured _ hs =>
    rw [hl] at hs
    cases hs
  | leaf _ _ hr _ => exact absurd h (Dialect.not_isConstruction_of_render hr)
  | faulty _ _ _ => exact Or.inr ⟨_, rfl⟩
  | deferred _ _ _ _ _ => exact Or.inr ⟨_, rfl⟩

theorem leaves_of_isConstruction (h : t.isConstruction = true) :
    s.leaves t = t.children.flatMap s.leaves := by
  rcases place_of_isConstruction (s := s) h with ⟨hf, hc⟩ | ⟨why, ho⟩
  · have hnone : t.children.flatMap s.leaves = [] := by
      rw [List.flatMap_eq_nil_iff]
      intro c hct
      rw [leaves_eq, hc c hct]
    rw [leaves_eq, hf, hnone]
  · rw [leaves_eq, ho]

theorem reasons_of_isConstruction (h : t.isConstruction = true) :
    s.reasons t = t.children.flatMap s.reasons := by
  rcases place_of_isConstruction (s := s) h with ⟨hf, hc⟩ | ⟨why, ho⟩
  · have hinner : t.children.flatMap s.reasons =
        t.children.flatMap fun c => if s.clientUse = .forbidden then s.obstacles c else [] := by
      refine List.flatMap_congr fun c hct => ?_
      rw [reasons_eq, hc c hct]
    obtain ⟨why, hr⟩ := s.dialect.render_of_isConstruction (some s.root.name) h
    rw [reasons_eq, hf, hinner, obstacles_eq, render, hr]
    dsimp only
    rw [if_pos h]
    split
    · rfl
    · exact (List.flatMap_eq_nil_iff.2 fun _ _ => rfl).symm
  · rw [reasons_eq, ho]
    dsimp only
    rw [if_pos h]
    cases t.children.flatMap s.reasons <;> rfl

end Splitter

theorem Slots.perm_texts_ofList {leaves leaves' : List Slot} (h : leaves.Perm leaves') :
    (ofList leaves).texts.Perm (ofList leaves').texts := by
  refine (List.perm_ext_iff_of_nodup (nodup_texts_ofList _) (nodup_texts_ofList _)).2 fun text => ?_
  rw [texts_ofList, texts_ofList, List.mem_eraseDups, List.mem_eraseDups]
  exact (h.map (·.text)).mem_iff

theorem Slots.isEmpty_eq_of_perm {slots slots' : Slots} (h : slots.texts.Perm slots'.texts) :
    slots.isEmpty = slots'.isEmpty := by
  have hlen := h.length_eq
  rw [texts, texts, List.length_map, List.length_map] at hlen
  rw [Bool.eq_iff_iff, List.isEmpty_iff_length_eq_zero, List.isEmpty_iff_length_eq_zero, hlen]

theorem Slots.isBareRoot_eq_of_perm {slots slots' : Slots} (h : slots.texts.Perm slots'.texts) :
    slots.isBareRoot = slots'.isBareRoot := by
  rw [isBareRoot, isBareRoot, Bool.eq_iff_iff, beq_iff_eq, beq_iff_eq, ← List.perm_singleton,
    ← List.perm_singleton]
  exact ⟨h.symm.trans, h.trans⟩

namespace Splitter

/-- The splits of two bodies send the same texts for the same reasons, in any order, or neither body is
split. -/
def AlikeUpToOrder (first second : Except Fault Split) : Prop :=
  (∃ result result', first = .ok result ∧ second = .ok result' ∧ result.arity = result'.arity ∧
    result.slots.texts.Perm result'.slots.texts ∧ result.reasons.Perm result'.reasons) ∨
  ∃ why why', first = .error why ∧ second = .error why' ∧ why.causes.Perm why'.causes

theorem alikeUpToOrder_split {s : Splitter} {body body' : Term}
    (hslots : (s.slots body).texts.Perm (s.slots body').texts)
    (hreasons : (s.reasons body).Perm (s.reasons body')) :
    AlikeUpToOrder (s.dialect.split s.clientUse (.lambda [s.root] body))
      (s.dialect.split s.clientUse (.lambda [s.root] body')) := by
  have hnil : s.reasons body = [] ↔ s.reasons body' = [] :=
    ⟨fun h => (h ▸ hreasons).nil_eq.symm, fun h => (h ▸ hreasons).eq_nil⟩
  have hfails : (s.clientUse = .forbidden ∧ s.reasons body ≠ []) ↔
      s.clientUse = .forbidden ∧ s.reasons body' ≠ [] :=
    and_congr_right fun _ => not_congr hnil
  rw [split_eq, split_eq, Slots.isEmpty_eq_of_perm hslots, Slots.isBareRoot_eq_of_perm hslots]
  by_cases hf : s.clientUse = .forbidden ∧ s.reasons body ≠ []
  · rw [if_pos hf, if_pos (hfails.1 hf)]
    refine Or.inr ⟨_, _, rfl, rfl, ?_⟩
    rwa [causes_ofCauses_reasons, causes_ofCauses_reasons]
  · rw [if_neg hf, if_neg (mt hfails.2 hf)]
    left
    split
    · exact ⟨_, _, rfl, rfl, rfl, .refl _, hreasons⟩
    · refine ⟨_, _, rfl, rfl, ?_, hslots, hreasons⟩
      simpa [Slots.texts, Split.arity] using hslots.length_eq

/-- Constructions of the same arguments in another order, with any names and types, are split alike up
to order. What a construction is left to the client for, or not split for, is what its arguments are,
one after the other. -/
theorem construction_split_by_argument (d : Dialect) (use : ClientUse) (root : Param)
    {args args' : List Term} (h : args.Perm args') (names names' : Option (List String))
    (ty ty' : Ty) :
    AlikeUpToOrder (d.split use (.lambda [root] (.construct names args ty)))
      (d.split use (.lambda [root] (.construct names' args' ty'))) ∧
    Split.causes (d.split use (.lambda [root] (.construct names args ty))) =
      args.flatMap fun arg => Split.causes (d.split use (.lambda [root] arg)) := by
  let s : Splitter := ⟨d, use, root⟩
  have hreasons : ∀ names args ty, s.reasons (.construct names args ty) = args.flatMap s.reasons :=
    fun names args ty => reasons_of_isConstruction rfl
  have hleaves : ∀ names args ty, s.leaves (.construct names args ty) = args.flatMap s.leaves :=
    fun names args ty => leaves_of_isConstruction rfl
  constructor
  · apply alikeUpToOrder_split (s := s)
    · rw [slots, slots, hleaves, hleaves]
      exact Slots.perm_texts_ofList (h.flatMap_right s.leaves)
    · rw [hreasons, hreasons]
      exact h.flatMap_right s.reasons
  · refine (s.causes_split _).trans ((hreasons names args ty).trans ?_)
    exact List.flatMap_congr fun arg _ => (s.causes_split arg).symm

theorem construction_split_by_argument_personSummary :
    (personSummary :: personSummary.children).Perm (personSummary.children ++ [personSummary]) ∧
    AlikeUpToOrder
      (Dialect.verbatim.split .forbidden (.lambda [person]
        (.construct none (personSummary :: personSummary.children) .object)))
      (Dialect.verbatim.split .forbidden (.lambda [person]
        (.construct (some ["Name"]) (personSummary.children ++ [personSummary]) .object))) ∧
    Split.causes (Dialect.verbatim.split .forbidden (.lambda [person]
        (.construct none (personSummary :: personSummary.children) .object))) =
      (personSummary :: personSummary.children).flatMap fun arg =>
        Split.causes (Dialect.verbatim.split .forbidden (.lambda [person] arg)) := by
  have h : (personSummary :: personSummary.children).Perm
      (personSummary.children ++ [personSummary]) :=
    (List.perm_append_singleton personSummary personSummary.children).symm
  exact ⟨h, construction_split_by_argument Dialect.verbatim .forbidden person h none (some ["Name"])
    .object .object⟩

end Splitter
end RemoteQuery
