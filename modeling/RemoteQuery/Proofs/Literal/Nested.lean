import RemoteQuery.Proofs.Literal.Decodable
import RemoteQuery.Proofs.Text.Nesting

/-!
# Texts of literals are well nested

Words have no brackets, symbols and strings stand between quotes, and a sequence between brackets. So
the text of any literal is well nested, and one item of a list.
-/

namespace RemoteQuery

open Nesting

namespace Nesting

variable {listed : Bool} {cs : List Char}

theorem isInert_of_isWordChar {c : Char} (h : Reader.isWordChar c = true) : isInert listed c = true := by
  have hne : ∀ {m : Char}, Reader.isWordChar m = false → c ≠ m := fun hm => ne_of_class h hm
  exact isInert_iff.2 ⟨hne rfl, hne rfl, hne rfl, hne rfl, hne rfl, fun _ => hne rfl⟩

theorem wellNested_word (h : ∀ c ∈ cs, Reader.isWordChar c = true) : WellNested listed cs :=
  wellNested_of_isInert fun c hc => isInert_of_isWordChar (h c hc)

end Nesting

theorem Reader.isWordChar_of_isDigit {c : Char} (h : c.isDigit = true) : Reader.isWordChar c = true := by
  rw [Reader.isWordChar, isNameChar, Char.isAlphanum, h]
  simp

theorem wellNested_quote {listed : Bool} (s : String) : WellNested listed (quote s).toList := by
  rw [quote, String.toList_ofList]
  exact wellNested_quoted s.toList

theorem Shortest.isWordChar_of_mem_positional (s : Scaled) :
    ∀ c ∈ s.positional, Reader.isWordChar c = true := by
  have hnumber : ∀ {n : Nat} {c : Char}, c ∈ Digits.ofNat n → Reader.isWordChar c = true :=
    fun hc => Reader.isWordChar_of_isDigit (Digits.isDigit_of_mem_ofNat hc)
  have hpadded : ∀ {width n : Nat} {c : Char}, c ∈ Digits.padded width n → Reader.isWordChar c = true :=
    fun hc => Reader.isWordChar_of_isDigit (Digits.isDigit_of_mem_padded hc)
  intro c hc
  rw [Scaled.positional] at hc
  split at hc
  · split at hc
    · rw [List.mem_singleton.1 hc]
      decide
    · rcases List.mem_append.1 hc with hc | hc
      · exact hnumber hc
      · rw [List.eq_of_mem_replicate hc]
        decide
  · rcases List.mem_append.1 hc with hc | hc
    · exact hpadded (List.mem_of_mem_take hc)
    · rcases List.mem_cons.1 hc with rfl | hc
      · decide
      · exact hpadded (List.mem_of_mem_drop hc)

section Floats

variable {listed : Bool}

theorem Single.wellNested_text (s : Single) : WellNested listed s.text := by
  rw [text]
  cases s.classify with
  | nan => exact wellNested_of_all _ rfl
  | infinite negative => cases negative <;> exact wellNested_of_all _ rfl
  | finite negative significand exponent =>
    have hdigits : WellNested listed (Shortest.text .single significand exponent) :=
      wellNested_word (Shortest.isWordChar_of_mem_positional _)
    have hsign : WellNested listed (if negative then ['-'] else []) := by
      cases negative <;> exact wellNested_of_all _ rfl
    exact (hsign.append hdigits).append (wellNested_of_all _ rfl)

theorem Double.wellNested_text (d : Double) : WellNested listed d.text := by
  rw [text]
  cases d.classify with
  | nan => exact wellNested_of_all _ rfl
  | infinite negative => cases negative <;> exact wellNested_of_all _ rfl
  | finite negative significand exponent =>
    have hdigits : WellNested listed (Shortest.text .double significand exponent) :=
      wellNested_word (Shortest.isWordChar_of_mem_positional _)
    have hsign : WellNested listed (if negative then ['-'] else []) := by
      cases negative <;> exact wellNested_of_all _ rfl
    have hpoint : ∀ b : Bool, WellNested listed (if b then [] else ['.', '0']) := by
      intro b
      cases b <;> exact wellNested_of_all _ rfl
    exact (hsign.append hdigits).append (hpoint _)

end Floats

namespace Literal

theorem wellNested_text (listed : Bool) (v : Literal) : WellNested listed v.text.toList := by
  cases v with
  | null | bool _ | int _ | decimal _ => exact wellNested_word (isWordChar_of_mem_text rfl)
  | single s =>
    rw [text, String.toList_ofList]
    exact s.wellNested_text
  | double d =>
    rw [text, String.toList_ofList]
    exact d.wellNested_text
  | string s => exact wellNested_quote s
  | char c => exact wellNested_quote _
  | enum e raw => exact wellNested_quote _
  | dateTime t zone =>
    simpa [text] using (wellNested_of_all "datetime".toList rfl).append
      (wellNested_quoted_of_not_mem (t.quote_not_mem_wireText zone))
  | guid g =>
    simpa [text] using (wellNested_of_all "guid".toList rfl).append
      (wellNested_quoted_of_not_mem g.quote_not_mem_text)
  | type t =>
    simpa [text, Ty.literalText] using (wellNested_of_all "t".toList rfl).append
      (wellNested_quote t.wireName)
  | sequence items =>
    have hitems : ∀ cs ∈ items.map (·.text.toList), WellNested true cs := by
      intro cs hcs
      obtain ⟨l, hl, rfl⟩ := List.mem_map.1 hcs
      have := List.sizeOf_lt_of_mem hl
      exact wellNested_text true l
    simpa [text, texts_eq_map, String.toList_intercalate, Function.comp_def] using
      (wellNested_intercalate hitems).squared
termination_by sizeOf v

end Literal
end RemoteQuery
