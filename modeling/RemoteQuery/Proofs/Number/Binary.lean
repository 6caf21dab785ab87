import Mathlib.Algebra.Group.Nat.Defs
import RemoteQuery.Number.Binary

/-!
# Words of floating-point numbers

A word is made of its fraction, its biased exponent and its sign, and all of them are seen from what it stands
for, unless that is no number. So two words that stand for the same are the same word.
-/

namespace RemoteQuery

namespace FloatFormat

variable (f : FloatFormat)

structure IsFinite (significand : Nat) (exponent : Int) : Prop where
  lt : significand < 2 * 2 ^ f.fractionBits
  leastExponent_le : f.leastExponent ≤ exponent
  le_of_lt : f.leastExponent < exponent → 2 ^ f.fractionBits ≤ significand

def negativeOf (word : Nat) : Bool := word / f.signBit % 2 == 1

def biasedOf (word : Nat) : Nat := word / 2 ^ f.fractionBits % 2 ^ f.exponentBits

def fractionOf (word : Nat) : Nat := word % 2 ^ f.fractionBits

theorem fractionOf_lt (word : Nat) : f.fractionOf word < 2 ^ f.fractionBits :=
  Nat.mod_lt _ (Nat.two_pow_pos _)

theorem classify_eq (word : Nat) : f.classify word =
    if f.biasedOf word = 2 ^ f.exponentBits - 1 then
      if f.fractionOf word = 0 then .infinite (f.negativeOf word) else .nan
    else if f.biasedOf word = 0 then
      .finite (f.negativeOf word) (f.fractionOf word) f.leastExponent
    else .finite (f.negativeOf word) (2 ^ f.fractionBits + f.fractionOf word)
      (f.leastExponent + (f.biasedOf word - 1 : Nat)) := rfl

variable {f} {v w word : Nat}

theorem eq_of_parts (hv : v < 2 * f.signBit) (hw : w < 2 * f.signBit)
    (hn : f.negativeOf v = f.negativeOf w) (hb : f.biasedOf v = f.biasedOf w)
    (hf : f.fractionOf v = f.fractionOf w) : v = w := by
  have hsign : f.signBit = 2 ^ f.fractionBits * 2 ^ f.exponentBits := Nat.pow_add ..
  have htop : ∀ {u}, u < 2 * f.signBit → u / f.signBit < 2 := fun hu =>
    Nat.div_lt_of_lt_mul (by rwa [Nat.mul_comm] at hu)
  have hnegative : v / f.signBit = w / f.signBit := by
    have hvlt := htop hv
    have hwlt := htop hw
    rw [negativeOf, negativeOf, Nat.mod_eq_of_lt hvlt, Nat.mod_eq_of_lt hwlt] at hn
    generalize v / f.signBit = a at hn hvlt
    generalize w / f.signBit = b at hn hwlt
    have hone : a = 1 ↔ b = 1 := by rw [← beq_iff_eq, hn, beq_iff_eq]
    omega
  have hupper : ∀ u, u / 2 ^ f.fractionBits = f.biasedOf u + 2 ^ f.exponentBits * (u / f.signBit) := by
    intro u
    rw [hsign, ← Nat.div_div_eq_div_mul, biasedOf, Nat.mod_add_div]
  calc v = f.fractionOf v + 2 ^ f.fractionBits * (v / 2 ^ f.fractionBits) := (Nat.mod_add_div ..).symm
    _ = f.fractionOf w + 2 ^ f.fractionBits * (w / 2 ^ f.fractionBits) := by
      rw [hf, hupper v, hupper w, hb, hnegative]
    _ = w := Nat.mod_add_div ..

theorem parts_of_finite {negative : Bool} {s : Nat} {e : Int} (h : f.classify word = .finite negative s e) :
    f.negativeOf word = negative ∧ f.fractionOf word = s % 2 ^ f.fractionBits ∧
      f.biasedOf word = if s < 2 ^ f.fractionBits then 0 else (e - f.leastExponent).toNat + 1 := by
  have hlt := f.fractionOf_lt word
  rw [classify_eq] at h
  split at h
  · split at h <;> cases h
  · split at h
    · rename_i hb
      cases h
      exact ⟨rfl, (Nat.mod_eq_of_lt hlt).symm, by rw [if_pos hlt, hb]⟩
    · cases h
      refine ⟨rfl, by rw [Nat.add_mod_left, Nat.mod_eq_of_lt hlt], ?_⟩
      rw [if_neg (by omega)]
      omega

theorem isFinite_of_classify {negative : Bool} {s : Nat} {e : Int}
    (h : f.classify word = .finite negative s e) : f.IsFinite s e := by
  have hlt := f.fractionOf_lt word
  rw [classify_eq] at h
  split at h
  · split at h <;> cases h
  · split at h
    · cases h
      exact ⟨by omega, Int.le_refl _, fun hl => absurd hl (Int.lt_irrefl _)⟩
    · cases h
      exact ⟨by omega, by omega, fun _ => Nat.le_add_right _ _⟩

theorem parts_of_infinite {negative : Bool} (h : f.classify word = .infinite negative) :
    f.negativeOf word = negative ∧ f.fractionOf word = 0 ∧
      f.biasedOf word = 2 ^ f.exponentBits - 1 := by
  rw [classify_eq] at h
  split at h
  · rename_i hb
    split at h
    · rename_i hf
      cases h
      exact ⟨rfl, hf, hb⟩
    · cases h
  · split at h <;> cases h

theorem classify_injective (hv : v < 2 * f.signBit) (hw : w < 2 * f.signBit)
    (h : f.classify v = f.classify w) : v = w ∨ f.classify v = .nan := by
  cases hc : f.classify v with
  | nan => exact Or.inr rfl
  | infinite negative =>
    obtain ⟨hn, hf, hb⟩ := parts_of_infinite hc
    obtain ⟨hn', hf', hb'⟩ := parts_of_infinite (h ▸ hc)
    exact Or.inl (eq_of_parts hv hw (hn.trans hn'.symm) (hb.trans hb'.symm) (hf.trans hf'.symm))
  | finite negative s e =>
    obtain ⟨hn, hf, hb⟩ := parts_of_finite hc
    obtain ⟨hn', hf', hb'⟩ := parts_of_finite (h ▸ hc)
    exact Or.inl (eq_of_parts hv hw (hn.trans hn'.symm) (hb.trans hb'.symm) (hf.trans hf'.symm))

end FloatFormat

theorem Double.classify_injective {d e : Double} (h : d.classify = e.classify) :
    d = e ∨ d.classify = .nan := by
  obtain ⟨v⟩ := d
  obtain ⟨w⟩ := e
  refine (FloatFormat.classify_injective v.toNat_lt w.toNat_lt h).imp_left fun he => ?_
  exact congrArg Double.mk (UInt64.toNat_inj.1 he)

theorem Single.classify_injective {s t : Single} (h : s.classify = t.classify) :
    s = t ∨ s.classify = .nan := by
  obtain ⟨v⟩ := s
  obtain ⟨w⟩ := t
  refine (FloatFormat.classify_injective v.toNat_lt w.toNat_lt h).imp_left fun he => ?_
  exact congrArg Single.mk (UInt32.toNat_inj.1 he)

end RemoteQuery
