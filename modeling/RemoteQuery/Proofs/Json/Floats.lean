import RemoteQuery.Json.Number
import RemoteQuery.Proofs.Json.Reader
import RemoteQuery.Proofs.Number.Shortest

/-!
# Floats in documents

Wherever the point is put among the digits of a float's shortest decimal, the number is one of the grammar and
has the value of that decimal. So two finite floats of one format are written alike only if they are one float.
-/

namespace RemoteQuery

open Shortest (Scaled)

namespace Json.Number

inductive LaysOut (negative : Bool) (s : Scaled) : Number → Prop
  | zero (hs : s.digits = 0) : LaysOut negative s ⟨negative, ['0'], ['0'], none⟩
  | cut (hs : s.digits ≠ 0) {k : Nat} (hk : 0 < k) {exponent : Option Int}
      (he : exponent.getD 0 - ((Digits.ofNat s.digits).drop k).length = s.exponent) :
      LaysOut negative s
        ⟨negative, (Digits.ofNat s.digits).take k, (Digits.ofNat s.digits).drop k, exponent⟩
  | leading (hs : s.digits ≠ 0) {k : Nat} (he : s.exponent = -(k + (Digits.ofNat s.digits).length : Int)) :
      LaysOut negative s ⟨negative, ['0'], List.replicate k '0' ++ Digits.ofNat s.digits, none⟩
  | trailing (hs : s.digits ≠ 0) {k : Nat} (he : s.exponent = k) :
      LaysOut negative s ⟨negative, Digits.ofNat s.digits ++ List.replicate k '0', ['0'], none⟩

theorem laysOut_ofScaled (least most : Int) (negative : Bool) (s : Scaled) :
    LaysOut negative s (ofScaled least most negative s) := by
  have hlength := List.length_pos_iff.2 (Digits.ofNat_ne_nil s.digits)
  rw [ofScaled]
  split
  · exact .zero ‹_›
  split
  · refine .cut ‹_› Nat.one_pos ?_
    rw [List.length_drop, Option.getD_some]
    omega
  split
  · rename_i hpoint
    obtain ⟨k, hk⟩ := Int.eq_ofNat_of_zero_le (Int.neg_nonneg_of_nonpos hpoint)
    rw [hk, Int.toNat_natCast]
    exact .leading ‹_› (by omega)
  split
  · refine .cut ‹_› (by omega) ?_
    rw [List.length_drop, Option.getD_none]
    omega
  · obtain ⟨k, hk⟩ := Int.eq_ofNat_of_zero_le (Int.not_lt.1 ‹_›)
    rw [hk, Int.toNat_natCast]
    exact .trailing ‹_› hk

variable {negative : Bool} {s : Scaled} {n : Number}

theorem LaysOut.wellFormed (h : LaysOut negative s n) : n.WellFormed := by
  have hdigits : ∀ c ∈ Digits.ofNat s.digits, c.isDigit = true := fun _ => Digits.isDigit_of_mem_ofNat
  have hzeros : ∀ k, ∀ c ∈ List.replicate k '0', c.isDigit = true := by
    intro k c hc
    rw [(List.mem_replicate.1 hc).2]
    rfl
  cases h with
  | zero hs => exact ⟨by simp, by simp, fun _ => rfl, by simp⟩
  | @cut hs k hk _ _ =>
    refine ⟨?_, fun c hc => hdigits c (List.mem_of_mem_take hc), ?_,
      fun c hc => hdigits c (List.mem_of_mem_drop hc)⟩
    · simp [Digits.ofNat_ne_nil, Nat.ne_of_gt hk]
    · rw [List.head?_take, if_neg (Nat.ne_of_gt hk)]
      exact fun hzero => absurd hzero (head?_ofNat hs)
  | leading hs _ =>
    exact ⟨by simp, by simp, fun _ => rfl,
      fun c hc => (List.mem_append.1 hc).elim (hzeros _ c) (hdigits c)⟩
  | trailing hs _ =>
    refine ⟨by simp [Digits.ofNat_ne_nil], fun c hc => (List.mem_append.1 hc).elim (hdigits c) (hzeros _ c),
      ?_, by simp⟩
    rw [List.head?_append_of_ne_nil _ (Digits.ofNat_ne_nil _)]
    exact fun hzero => absurd hzero (head?_ofNat hs)

def magnitude (n : Number) : ℚ :=
  Nat.ofDigitChars 10 (n.whole ++ n.fraction) 0 * 10 ^ (n.exponent.getD 0 - n.fraction.length)

theorem LaysOut.magnitude_eq (h : LaysOut negative s n) : n.magnitude = s.value := by
  have hdigits : Nat.ofDigitChars 10 (Digits.ofNat s.digits) 0 = s.digits := Nat.ofDigitChars_ten_toDigits
  rw [magnitude, Scaled.value]
  cases h with
  | zero hs => simp [hs, Nat.ofDigitChars]
  | cut hs hk he => rw [List.take_append_drop, hdigits, he]
  | @leading hs k he =>
    have hlead : Nat.ofDigitChars 10 (['0'] ++ (List.replicate k '0' ++ Digits.ofNat s.digits)) 0 =
        s.digits := by
      rw [Nat.ofDigitChars_append, Nat.ofDigitChars_append, Nat.ofDigitChars_replicate_zero]
      simpa [Nat.ofDigitChars] using hdigits
    rw [hlead, he, List.length_append, List.length_replicate, Option.getD_none]
    push_cast
    rw [zero_sub]
  | @trailing hs k he =>
    have htrail : Nat.ofDigitChars 10 (Digits.ofNat s.digits ++ List.replicate k '0' ++ ['0']) 0 =
        s.digits * 10 ^ k * 10 := by
      rw [Nat.ofDigitChars_append, Nat.ofDigitChars_append, hdigits, Nat.ofDigitChars_replicate_zero]
      simp [Nat.ofDigitChars, Nat.mul_comm]
    rw [htrail, he, Option.getD_none, List.length_singleton]
    push_cast
    rw [zpow_natCast, mul_assoc]
    norm_num

theorem wellFormed_ofScaled (least most : Int) (negative : Bool) (s : Scaled) :
    (ofScaled least most negative s).WellFormed :=
  (laysOut_ofScaled least most negative s).wellFormed

theorem LaysOut.negative_eq (h : LaysOut negative s n) : n.negative = negative := by
  cases h <;> rfl

end Json.Number

namespace Json

variable {f : FloatFormat} {least most : Int}

theorem plain_ofFloat (f : FloatFormat) (least most : Int) (c : FloatClass) :
    (ofFloat f least most c).Plain := by
  cases c with
  | finite negative s e => exact .number (Number.wellFormed_ofScaled ..)
  | nan | infinite _ => exact .null

theorem ne_null_iff {c : FloatClass} : ofFloat f least most c ≠ .null ↔ ∃ n s e, c = .finite n s e := by
  cases c <;> simp [ofFloat]

theorem eq_of_ofFloat_eq {c c' : FloatClass} (hc : ∀ n s e, c = .finite n s e → f.IsFinite s e)
    (hc' : ∀ n s e, c' = .finite n s e → f.IsFinite s e)
    (h : ofFloat f least most c = ofFloat f least most c') (hn : ofFloat f least most c ≠ .null) : c = c' := by
  obtain ⟨n, s, e, rfl⟩ := ne_null_iff.1 hn
  obtain ⟨n', s', e', rfl⟩ := ne_null_iff.1 (h ▸ hn)
  have hlays := Number.laysOut_ofScaled least most n (Shortest.ofFinite f s e)
  have hlays' := Number.laysOut_ofScaled least most n' (Shortest.ofFinite f s' e')
  rw [Json.number.inj h] at hlays
  obtain ⟨rfl, rfl⟩ := Shortest.ofFinite_value_injective (hc n s e rfl) (hc' n' s' e' rfl)
    (hlays.magnitude_eq.symm.trans hlays'.magnitude_eq)
  rw [← hlays.negative_eq, hlays'.negative_eq]

end Json

/-- Doubles with one document that is not null are one double. -/
theorem Double.eq_of_toJson_eq {d e : Double} (h : d.toJson = e.toJson) (hn : d.toJson ≠ .null) : d = e := by
  have hclass := Json.eq_of_ofFloat_eq (fun _ _ _ => FloatFormat.isFinite_of_classify)
    (fun _ _ _ => FloatFormat.isFinite_of_classify) h hn
  refine (classify_injective hclass).resolve_right fun hnan => ?_
  rw [toJson, hnan] at hn
  exact hn rfl

theorem Single.eq_of_toJson_eq {s t : Single} (h : s.toJson = t.toJson) (hn : s.toJson ≠ .null) : s = t := by
  have hclass := Json.eq_of_ofFloat_eq (fun _ _ _ => FloatFormat.isFinite_of_classify)
    (fun _ _ _ => FloatFormat.isFinite_of_classify) h hn
  refine (classify_injective hclass).resolve_right fun hnan => ?_
  rw [toJson, hnan] at hn
  exact hn rfl

end RemoteQuery
