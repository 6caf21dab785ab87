import RemoteQuery.Proofs.Split.Passes

/-!
# The slot table

A table built from a list of leaves holds, for each text, the first leaf with that text and no other.
So a text is found in the table exactly when some leaf has it, the index of a text leads to its slot,
and the type of a slot is the type of the first leaf that took it.
-/

namespace RemoteQuery.Slots

def slot? (slots : Slots) (text : String) : Option Slot := slots.find? (·.text == text)

theorem text_of_slot? {slots : Slots} {text : String} {slot : Slot}
    (h : slots.slot? text = some slot) : slot.text = text := by
  simpa using List.find?_some h

theorem mem_of_slot? {slots : Slots} {text : String} {slot : Slot}
    (h : slots.slot? text = some slot) : slot ∈ slots :=
  List.mem_of_find?_eq_some h

theorem slot?_insert (slots : Slots) (slot : Slot) (text : String) :
    (slots.insert slot).slot? text = (slots ++ [slot]).find? (·.text == text) := by
  rw [insert]
  split
  · rename_i hany
    rw [List.find?_append, slot?]
    by_cases ht : slot.text = text
    · subst ht
      obtain ⟨found, hf⟩ := Option.isSome_iff_exists.1 (List.find?_isSome.2 (List.any_eq_true.1 hany))
      rw [hf, Option.some_or]
    · simp [ht]
  · rfl

theorem slot?_ofList (leaves : List Slot) (text : String) :
    (ofList leaves).slot? text = leaves.find? (·.text == text) := by
  suffices h : ∀ slots : Slots, (leaves.foldl insert slots).slot? text =
      (slots ++ leaves).find? (·.text == text) from h empty
  induction leaves with
  | nil => exact fun slots => by rw [List.append_nil]; rfl
  | cons leaf leaves ih =>
    intro slots
    have hi := slot?_insert slots leaf text
    rw [slot?] at hi
    rw [List.foldl_cons, ih, List.find?_append, hi, ← List.find?_append, List.append_assoc,
      List.singleton_append]

theorem exists_slot?_ofList {leaves : List Slot} {leaf : Slot} (h : leaf ∈ leaves) :
    ∃ slot, (ofList leaves).slot? leaf.text = some slot := by
  rw [slot?_ofList]
  exact Option.isSome_iff_exists.1 (List.find?_isSome.2 ⟨leaf, h, by simp⟩)

theorem mem_of_mem_ofList {leaves : List Slot} {slot : Slot} (h : slot ∈ ofList leaves) :
    slot ∈ leaves := by
  suffices hs : ∀ slots : Slots, slot ∈ leaves.foldl insert slots → slot ∈ slots ∨ slot ∈ leaves from
    (hs empty h).resolve_left List.not_mem_nil
  clear h
  induction leaves with
  | nil => exact fun _ h => Or.inl h
  | cons leaf leaves ih =>
    intro slots h
    rcases ih _ h with h | h
    · rw [insert] at h
      split at h
      · exact Or.inl h
      · rcases List.mem_append.1 h with h | h
        · exact Or.inl h
        · exact Or.inr (List.mem_cons.2 (Or.inl (by simpa using h)))
    · exact Or.inr (List.mem_cons_of_mem _ h)

theorem slot?_of_mem {slots : Slots} (h : slots.texts.Nodup) {slot : Slot} (hs : slot ∈ slots) :
    slots.slot? slot.text = some slot := by
  induction slots with
  | nil => cases hs
  | cons first slots ih =>
    obtain ⟨hf, hn⟩ : first.text ∉ texts slots ∧ (texts slots).Nodup := List.nodup_cons.1 h
    rcases List.mem_cons.1 hs with rfl | hs
    · simp [slot?]
    · have hne : first.text ≠ slot.text := fun he => hf (he ▸ List.mem_map_of_mem hs)
      simpa [slot?, hne] using ih hn hs

theorem getElem?_indexOf {slots : Slots} {text : String} {slot : Slot}
    (h : slots.slot? text = some slot) : slots[slots.indexOf text]? = some slot := by
  induction slots with
  | nil => cases h
  | cons first slots ih =>
    rw [slot?, List.find?_cons] at h
    rw [indexOf, List.findIdx_cons]
    by_cases hf : (first.text == text) = true
    · simpa [hf] using h
    · simp only [hf] at h ⊢
      simpa [indexOf] using ih h

theorem indexOf_lt_of_slot? {slots : Slots} {text : String} {slot : Slot}
    (h : slots.slot? text = some slot) : slots.indexOf text < slots.length :=
  (List.getElem?_eq_some_iff.1 (getElem?_indexOf h)).1

theorem text_eq_of_indexOf_eq {leaves : List Slot} {leaf leaf' : Slot} (hl : leaf ∈ leaves)
    (hl' : leaf' ∈ leaves)
    (h : (ofList leaves).indexOf leaf.text = (ofList leaves).indexOf leaf'.text) :
    leaf.text = leaf'.text := by
  obtain ⟨slot, hs⟩ := exists_slot?_ofList hl
  obtain ⟨slot', hs'⟩ := exists_slot?_ofList hl'
  have hi : some slot = some slot' := by
    rw [← getElem?_indexOf hs, ← getElem?_indexOf hs', h]
  rw [← text_of_slot? hs, ← text_of_slot? hs', Option.some.inj hi]

theorem typeOf_eq {slots : Slots} {text : String} {slot : Slot}
    (h : slots.slot? text = some slot) (default : Ty) : slots.typeOf text default = slot.term.ty := by
  rw [slot?] at h
  rw [typeOf, h]
  rfl

end RemoteQuery.Slots
