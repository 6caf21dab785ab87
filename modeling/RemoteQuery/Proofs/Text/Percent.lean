import RemoteQuery.Proofs.Text.Numerals
import RemoteQuery.Text.Percent

/-!
# Decoding option values

An encoded value is read from the left: a plus sign is a space, a percent sign and two hexadecimal digits
are a byte, and everything else stands for itself. The bytes are then read as UTF-8.
-/

namespace RemoteQuery.Percent

def bytes? : List Char → Option (List UInt8)
  | [] => some []
  | '%' :: high :: low :: rest => do
    let byte ← Hex.toNat? [high, low]
    return UInt8.ofNat byte :: (← bytes? rest)
  | '%' :: _ => none
  | '+' :: rest => (bytes? rest).map (String.utf8EncodeChar ' ' ++ ·)
  | c :: rest => (bytes? rest).map (String.utf8EncodeChar c ++ ·)

def decode? (cs : List Char) : Option String :=
  (bytes? cs).bind fun bytes => String.fromUTF8? bytes.toByteArray

def upperHex : List Char := "0123456789ABCDEF".toList

/-- Every percent sign starts an escape, and no character separates options or is outside of ASCII. -/
structure IsClean (cs : List Char) : Prop where
  ascii : ∀ c ∈ cs, c.toNat < 128
  separators : '&' ∉ cs ∧ '=' ∉ cs ∧ '#' ∉ cs
  escapes : ∀ before after, cs = before ++ '%' :: after →
    ∃ high ∈ upperHex, ∃ low ∈ upperHex, ∃ rest, after = high :: low :: rest

variable {c : Char} {cs ds : List Char}

theorem escapeByte_eq (b : UInt8) :
    escapeByte b = ['%', (Nat.digitChar (b.toNat / 16 % 16)).toUpper,
      (Nat.digitChar (b.toNat % 16)).toUpper] := by
  simp [escapeByte, Hex.digits, List.range_succ]

theorem toUpper_digitChar_mem_upperHex {d : Nat} (h : d < 16) :
    (Nat.digitChar d).toUpper ∈ upperHex := by
  have hall : ∀ d : Fin 16, (Nat.digitChar d).toUpper ∈ upperHex := by decide
  exact hall ⟨d, h⟩

theorem isClean_nil : IsClean [] where
  ascii := by simp
  separators := by simp
  escapes before after h := by simp at h

theorem IsClean.append (h : IsClean cs) (h' : IsClean ds) : IsClean (cs ++ ds) where
  ascii c hc := (List.mem_append.1 hc).elim (h.ascii c) (h'.ascii c)
  separators := by
    have hs := h.separators
    have hs' := h'.separators
    simp only [List.mem_append, not_or]
    exact ⟨⟨hs.1, hs'.1⟩, ⟨hs.2.1, hs'.2.1⟩, hs.2.2, hs'.2.2⟩
  escapes before after he := by
    rcases List.append_eq_append_iff.1 he with ⟨front, hb, hd⟩ | ⟨front, hc, hp⟩
    · exact h'.escapes front after hd
    · cases front with
      | nil => exact h'.escapes [] after (by simpa using hp.symm)
      | cons b front =>
        -- the sign is in the first part, and so is the whole of its escape
        obtain ⟨rfl, rfl⟩ := List.cons.inj hp
        obtain ⟨high, hh, low, hl, rest, rfl⟩ := h.escapes before front hc
        exact ⟨high, hh, low, hl, rest ++ ds, rfl⟩

theorem isClean_singleton (ha : c.toNat < 128) (hc : c ∉ ['&', '=', '#', '%']) : IsClean [c] where
  ascii b hb := by
    rw [List.mem_singleton.1 hb]
    exact ha
  separators := by
    simp only [List.mem_cons, not_or] at hc
    simp [Ne.symm hc.1, Ne.symm hc.2.1, Ne.symm hc.2.2.1]
  escapes before after h := by
    have hp : '%' = c := List.mem_singleton.1 (h ▸ by simp)
    subst hp
    exact absurd hc (by decide)

theorem of_passes (h : passes c = true) : c.toNat < 128 ∧ c ∉ ['&', '=', '#', '%', '+'] := by
  have hlt : c.toNat < 128 := by
    rw [passes, Bool.or_eq_true, List.contains_iff_mem] at h
    rcases h with h | h
    · have hbool : ((decide (c.val ≥ 65 ∧ c.val ≤ 90) || decide (c.val ≥ 97) && decide (c.val ≤ 122)) ||
          decide (c.val ≥ 48) && decide (c.val ≤ 57)) = true := h
      have hcases : (65 ≤ c.val ∧ c.val ≤ 90 ∨ 97 ≤ c.val ∧ c.val ≤ 122) ∨ 48 ≤ c.val ∧ c.val ≤ 57 := by
        simpa [UInt32.le_iff_toNat_le] using hbool
      simp only [UInt32.le_iff_toNat_le, UInt32.reduceToNat] at hcases
      rw [Char.toNat]
      omega
    · have hall : ∀ c ∈ ['\'', '.', '~', '-', '_', ')', '(', '$'], c.toNat < 128 := by simp
      exact hall c h
  have hall : ∀ n : Fin 128, passes (Char.ofNat n) = true →
      Char.ofNat n ∉ ['&', '=', '#', '%', '+'] := by
    decide +kernel
  have hc := hall ⟨c.toNat, hlt⟩
  rw [Char.ofNat_toNat] at hc
  exact ⟨hlt, hc h⟩

theorem isClean_escapeByte (b : UInt8) : IsClean (escapeByte b) := by
  have hhigh := toUpper_digitChar_mem_upperHex (Nat.mod_lt (b.toNat / 16) (by decide : 0 < 16))
  have hlow := toUpper_digitChar_mem_upperHex (Nat.mod_lt b.toNat (by decide : 0 < 16))
  have hall : (upperHex.all fun c => c.toNat < 128 ∧ c ∉ ['&', '=', '#', '%']) = true := by decide
  have hplain : ∀ c ∈ upperHex, c.toNat < 128 ∧ c ∉ ['&', '=', '#', '%'] :=
    fun c hc => of_decide_eq_true (List.all_eq_true.1 hall c hc)
  rw [escapeByte_eq]
  generalize (Nat.digitChar (b.toNat / 16 % 16)).toUpper = high at hhigh
  generalize (Nat.digitChar (b.toNat % 16)).toUpper = low at hlow
  have htail := (isClean_singleton (hplain high hhigh).1 (hplain high hhigh).2).append
    (isClean_singleton (hplain low hlow).1 (hplain low hlow).2)
  refine ⟨?_, ?_, ?_⟩
  · intro c hc
    rcases List.mem_cons.1 hc with rfl | hc
    · decide
    · exact htail.ascii c hc
  · simpa using htail.separators
  · intro before after h
    cases before with
    | nil =>
      obtain ⟨-, rfl⟩ := List.cons.inj h
      exact ⟨high, hhigh, low, hlow, [], rfl⟩
    | cons c before => exact htail.escapes before after (List.cons.inj h).2

theorem isClean_flatMap {α : Type} {f : α → List Char} (hf : ∀ a, IsClean (f a)) (as : List α) :
    IsClean (as.flatMap f) := by
  induction as with
  | nil => exact isClean_nil
  | cons a as ih => exact (hf a).append ih

theorem isClean_encodeChar (c : Char) : IsClean (encodeChar c) := by
  rw [encodeChar]
  split
  · rename_i h
    obtain ⟨hlt, hc⟩ := of_passes h
    exact isClean_singleton hlt fun hm => hc (List.mem_append_left ['+'] hm)
  · split
    · exact isClean_singleton (by decide) (by decide)
    · exact isClean_flatMap isClean_escapeByte _

theorem encode_of_passes (h : ∀ c ∈ cs, passes c = true) : encode cs = cs := by
  induction cs with
  | nil => rfl
  | cons c cs ih =>
    rw [encode, List.flatMap_cons, ← encode, ih fun b hb => h b (List.mem_cons_of_mem c hb), encodeChar,
      if_pos (h c List.mem_cons_self)]
    rfl

theorem isClean_encode (cs : List Char) : IsClean (encode cs) := isClean_flatMap isClean_encodeChar cs

theorem bytes?_escapeByte_append (b : UInt8) (cs : List Char) :
    bytes? (escapeByte b ++ cs) = (bytes? cs).map (b :: ·) := by
  have hread := Hex.toNat?_map_digits (fun _ => Hex.value?_toUpper_digitChar) 2 b.toNat_lt
  have hdigits := List.cons.inj (escapeByte_eq b)
  rw [hdigits.2] at hread
  rw [escapeByte_eq, List.cons_append, List.cons_append, List.cons_append, List.nil_append, bytes?,
    hread]
  cases bytes? cs with
  | none => rfl
  | some bytes => simp

theorem bytes?_flatMap_escapeByte_append (bytes : List UInt8) (cs : List Char) :
    bytes? (bytes.flatMap escapeByte ++ cs) = (bytes? cs).map (bytes ++ ·) := by
  induction bytes with
  | nil => simp
  | cons b bytes ih =>
    rw [List.flatMap_cons, List.append_assoc, bytes?_escapeByte_append, ih, Option.map_map]
    rfl

theorem bytes?_encodeChar_append (c : Char) (cs : List Char) :
    bytes? (encodeChar c ++ cs) = (bytes? cs).map (String.utf8EncodeChar c ++ ·) := by
  rw [encodeChar]
  split
  · rename_i h
    obtain ⟨-, hc⟩ := of_passes h
    simp only [List.mem_cons, not_or] at hc
    rw [List.singleton_append, bytes?]
    · exact fun _ _ _ he => absurd he hc.2.2.2.1
    · exact fun he => absurd he hc.2.2.2.1
    · exact fun he => absurd he hc.2.2.2.2.1
  · split
    · rename_i h
      rw [h]
      rfl
    · exact bytes?_flatMap_escapeByte_append _ cs

theorem bytes?_encode (cs : List Char) : bytes? (encode cs) = some (cs.flatMap String.utf8EncodeChar) := by
  induction cs with
  | nil => rfl
  | cons c cs ih =>
    rw [encode, List.flatMap_cons, bytes?_encodeChar_append, ← encode, ih]
    rfl

theorem decode?_encode (s : String) : decode? (encode s.toList) = some s := by
  have hbytes : (s.toList.flatMap String.utf8EncodeChar).toByteArray = s.toByteArray :=
    String.utf8Encode_toList
  rw [decode?, bytes?_encode, Option.bind_some, hbytes, String.fromUTF8?, dif_pos s.isValidUTF8]
  rfl

end RemoteQuery.Percent
