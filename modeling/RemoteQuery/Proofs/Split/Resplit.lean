import RemoteQuery.Proofs.Split.Refusal

/-!
# Splitting what is sent

The server's term is a construction of the leaves. As the body of a selector of its own it is opened at
once, and each of its arguments is placed as the leaf that it was, with the text of its slot. The texts
are distinct already, so the leaves take the same slots, and the same term is sent.
-/

namespace RemoteQuery

namespace Slots

theorem insert_of_not_mem {slots : Slots} {slot : Slot} (h : slot.text ∉ slots.texts) :
    slots.insert slot = slots ++ [slot] := by
  rw [insert, if_neg]
  simpa [texts] using h

theorem ofList_of_nodup {slots : Slots} (h : slots.texts.Nodup) : ofList slots = slots := by
  suffices hs : ∀ taken : Slots, (texts (taken ++ slots)).Nodup →
      slots.foldl insert taken = taken ++ slots from hs empty h
  clear h
  induction slots with
  | nil => exact fun taken _ => (List.append_nil taken).symm
  | cons slot slots ih =>
    intro taken hn
    have hfree : slot.text ∉ texts taken := by
      rw [texts, List.map_append, List.map_cons] at hn
      exact fun hm => (List.nodup_append.1 hn).2.2 _ hm _ List.mem_cons_self rfl
    have hsplit : taken ++ slot :: slots = (taken ++ [slot]) ++ slots :=
      List.append_cons taken slot slots
    rw [List.foldl_cons, insert_of_not_mem hfree, ih _ (hsplit ▸ hn), hsplit]

end Slots

namespace Splitter

variable {s : Splitter} {t body : Term} {slots : Slots}

theorem mentions_of_place_leaf {text : String} (h : s.place t = .leaf text) :
    t.mentions s.root.name = true := by
  have hp := s.placed t
  rw [h] at hp
  cases hp with
  | leaf hm _ _ _ => exact hm

theorem place_of_mem_slots {slot : Slot} (h : slot ∈ s.slots body) :
    s.place slot.term = .leaf slot.text := by
  rcases isCut_or_captured_of_mem_leaves (Slots.mem_of_mem_ofList h) with ⟨-, -, -, hl⟩ | ⟨rfl, -⟩
  · exact hl
  · exact (s.place_param s.root).trans (if_pos rfl)

theorem place_construct (hn : slots ≠ [])
    (hp : ∀ slot ∈ slots, s.place slot.term = .leaf slot.text) :
    ∃ why, s.place (.tuple (slots.map (·.term))) = .opened why := by
  obtain ⟨slot, hs⟩ := List.exists_mem_of_ne_nil slots hn
  have hmentions : (Term.tuple (slots.map (·.term))).mentions s.root.name = true := by
    rw [Term.mentions_iff]
    exact Or.inr ⟨rfl, slot.term, List.mem_map_of_mem hs, mentions_of_place_leaf (hp slot hs)⟩
  have hpl := s.placed (.tuple (slots.map (·.term)))
  generalize s.place (.tuple (slots.map (·.term))) = pl at hpl
  cases hpl with
  | free hm => rw [hmentions] at hm; cases hm
  | captured _ hl => cases hl
  | leaf _ _ hr _ => exact absurd rfl (Dialect.not_isConstruction_of_render hr)
  | faulty _ _ _ => exact ⟨_, rfl⟩
  | deferred _ _ _ _ _ => exact ⟨_, rfl⟩

theorem leaves_construct (hn : slots ≠ [])
    (hp : ∀ slot ∈ slots, s.place slot.term = .leaf slot.text) :
    s.leaves (.tuple (slots.map (·.term))) = slots := by
  obtain ⟨why, ho⟩ := place_construct hn hp
  have hleaf : ∀ slot ∈ slots, s.leaves slot.term = [slot] := by
    intro slot hs
    rw [leaves_eq, hp slot hs]
  rw [leaves_eq, ho]
  dsimp only
  rw [Term.children_tuple, List.flatMap_map, List.flatMap_congr hleaf, List.flatMap_singleton']

theorem reasons_construct (hn : slots ≠ [])
    (hp : ∀ slot ∈ slots, s.place slot.term = .leaf slot.text) :
    s.reasons (.tuple (slots.map (·.term))) = [] := by
  obtain ⟨why, ho⟩ := place_construct hn hp
  have hnone : (slots.map (·.term)).flatMap s.reasons = [] := by
    rw [List.flatMap_eq_nil_iff]
    intro t ht
    obtain ⟨slot, hs, rfl⟩ := List.mem_map.1 ht
    rw [reasons_eq, hp slot hs]
  rw [reasons_eq, ho, Term.children_tuple]
  dsimp only
  rw [hnone]
  rfl

theorem not_degenerate_of_arity_pos {result : Split}
    (h : s.dialect.split s.clientUse (.lambda [s.root] body) = .ok result) (hn : 0 < result.arity) :
    ¬ ((s.slots body).isEmpty = true ∨ (s.slots body).isBareRoot = true) := by
  intro hd
  rw [split_eq, if_pos hd] at h
  split at h
  · cases h
  · cases h
    simp [Split.arity, Slots.empty] at hn

/-- Splitting the server's term again sends the same term with the same text, and leaves nothing to the
client for a reason. -/
theorem split_server_again {s : Splitter} {body : Term} {result : Split}
    (h : s.dialect.split s.clientUse (.lambda [s.root] body) = .ok result) (hn : 0 < result.arity) :
    ∃ server again, result.server? = some server ∧
      s.dialect.split s.clientUse (.lambda [s.root] server) = .ok again ∧
      again.arity = result.arity ∧ again.server? = some server ∧
      again.serverText? = result.serverText? ∧ again.reasons = [] := by
  have hd := not_degenerate_of_arity_pos h hn
  have hserver := server?_of_arity_pos hn
  obtain rfl := eq_of_split_of_arity_pos h hn
  have hne : s.slots body ≠ [] := fun he => hd (Or.inl (by rw [he]; rfl))
  have hp : ∀ slot ∈ s.slots body, s.place slot.term = .leaf slot.text := fun _ =>
    place_of_mem_slots
  have hslots : s.slots (.tuple ((s.slots body).map (·.term))) = s.slots body := by
    rw [slots, leaves_construct hne hp]
    exact Slots.ofList_of_nodup (Slots.nodup_texts_ofList _)
  have hagain := s.split_eq (.tuple ((s.slots body).map (·.term)))
  rw [reasons_construct hne hp, hslots, if_neg (by simp), if_neg hd] at hagain
  exact ⟨_, _, hserver, hagain, rfl, hserver, rfl, rfl⟩

theorem split_server_again_personSummary :
    ∃ result, Dialect.verbatim.split .allowed (.lambda [person] personSummary) = .ok result ∧
      0 < result.arity ∧ ∃ server again, result.server? = some server ∧
        Dialect.verbatim.split .allowed (.lambda [person] server) = .ok again ∧
        again.arity = result.arity ∧ again.server? = some server ∧
        again.serverText? = result.serverText? ∧ again.reasons = [] := by
  obtain ⟨result, h, hn⟩ := exists_split_personSummary
  exact ⟨result, h, hn, split_server_again (s := ⟨.verbatim, .allowed, person⟩) h hn⟩

end Splitter
end RemoteQuery
