import RemoteQuery.Guid
import RemoteQuery.Proofs.Text.Numerals

/-!
# Texts of identifiers

The hyphens stand at fixed places, so an identifier is read back from its text. That text is too long for
bare digits and too short for braces, and it starts with a digit.
-/

namespace RemoteQuery.Guid

theorem unhyphen?_groups {a b c d e : List Char} (ha : a.length = 8) (hb : b.length = 4)
    (hc : c.length = 4) (hd : d.length = 4) (he : e.length = 12) :
    unhyphen? (a ++ '-' :: b ++ '-' :: c ++ '-' :: d ++ '-' :: e) = some (a ++ b ++ c ++ d ++ e) := by
  simp (disch := omega) [unhyphen?, List.drop_append, List.getElem?_append, List.drop_of_length_le,
    List.getElem?_cons_zero, *]

variable (g : Guid)

theorem length_digits : g.digits.length = 32 := Hex.length_digits ..

theorem unhyphen?_text : unhyphen? g.text = some g.digits := by
  have hlen := g.length_digits
  have hgroups : g.digits.take 8 ++ (g.digits.drop 8).take 4 ++ (g.digits.drop 12).take 4 ++
      (g.digits.drop 16).take 4 ++ g.digits.drop 20 = g.digits := by
    have hsplit : ∀ n k, (g.digits.drop n).take k ++ g.digits.drop (n + k) = g.digits.drop n := by
      intro n k
      rw [← List.drop_drop, List.take_append_drop]
    rw [List.append_assoc, List.append_assoc, List.append_assoc, hsplit 16 4, hsplit 12 4, hsplit 8 4,
      List.take_append_drop]
  refine (unhyphen?_groups ?_ ?_ ?_ ?_ ?_).trans (congrArg some hgroups) <;>
    simp [hlen]

theorem length_text : g.text.length = 36 := by
  simp [text, length_digits]

theorem ofDigits?_digits : ofDigits? g.digits = some g := by
  have hread := Hex.toNat?_map_digits (f := id) (fun _ => Hex.value?_digitChar) 32 g.value.isLt
  rw [List.map_id] at hread
  rw [ofDigits?, if_pos g.length_digits, digits, hread, Option.map_some, BitVec.ofNat_toNat]
  simp

theorem read?_text : read? g.text = some g := by
  have hlen := g.length_text
  have hurn : (g.text.take urn.length).map Char.toLower ≠ urn := by
    obtain ⟨c, cs, hc⟩ : ∃ c cs, g.digits = c :: cs :=
      List.exists_cons_of_length_pos (by rw [length_digits]; decide)
    have htext : ∃ rest, g.text = c :: rest := by simp [text, hc]
    obtain ⟨rest, hrest⟩ := htext
    have hall : ∀ d : Fin 16, (Nat.digitChar d).toLower ≠ 'u' := by decide
    obtain ⟨d, rfl⟩ := Hex.exists_of_mem_digits (hc ▸ List.mem_cons_self : c ∈ g.digits)
    rw [hrest]
    exact fun h => hall d (List.cons.inj h).1
  rw [read?, if_neg (by omega), if_neg (by omega), if_neg hurn, unhyphen?_text, Option.bind_some,
    ofDigits?_digits]

theorem text_injective {g g' : Guid} (h : g.text = g'.text) : g = g' := by
  have hread := g.read?_text
  rw [h, read?_text] at hread
  exact (Option.some.inj hread).symm

end RemoteQuery.Guid
