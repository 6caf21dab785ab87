import Mathlib.Algebra.Order.Field.Power
import Mathlib.Algebra.Order.Ring.Rat
import Mathlib.Tactic.FieldSimp
import Mathlib.Tactic.Positivity
import Mathlib.Tactic.Ring
import RemoteQuery.Number.Shortest
import RemoteQuery.Proofs.Number.Binary
import RemoteQuery.Proofs.Text.Numerals

/-!
# Shortest decimals tell floats apart

The decimal that a positive float is written with lies in the interval of the float: some grid has a point
there, at the latest the one on which the float itself is a point. Intervals of two floats have at most an end
in common, and then the interval of one of them is open. So no decimal is that of two floats, and the
text of a decimal has its value.
-/

namespace RemoteQuery.Shortest

open FloatFormat

def Scaled.value (s : Scaled) : ℚ := s.digits * 10 ^ s.exponent

namespace Interval

/-- The number reads back to the float of the interval. -/
structure Holds (i : Interval) (q : ℚ) : Prop where
  low_le : i.low * 2 ^ i.exponent ≤ q
  le_high : q ≤ i.high * 2 ^ i.exponent
  inside : i.closed = false → i.low * 2 ^ i.exponent < q ∧ q < i.high * 2 ^ i.exponent

def baseRatio (base : Nat) (e : Int) : Nat × Nat :=
  if 0 ≤ e then (base ^ e.toNat, 1) else (1, base ^ (-e).toNat)

theorem baseRatio_spec (base : Nat) (hb : 0 < base) (e : Int) :
    ((baseRatio base e).1 : ℚ) = base ^ e * (baseRatio base e).2 ∧ 0 < (baseRatio base e).2 := by
  have hbase : (base : ℚ) ≠ 0 := by positivity
  rw [baseRatio]
  split
  · rename_i he
    obtain ⟨n, rfl⟩ := Int.eq_ofNat_of_zero_le he
    simp
  · rename_i he
    obtain ⟨n, hn⟩ := Int.eq_ofNat_of_zero_le (show 0 ≤ -e by omega)
    obtain rfl : e = -n := by omega
    simp [hbase, hb]

variable (i : Interval) (e : Int)

def unit : Nat := (baseRatio 2 i.exponent).1 * (baseRatio 10 e).2

def step : Nat := (baseRatio 10 e).1 * (baseRatio 2 i.exponent).2

theorem step_pos : 0 < i.step e := by
  obtain ⟨hten, hden⟩ := baseRatio_spec 10 (by decide) e
  have hnum : (0 : ℚ) < (baseRatio 10 e).1 := by
    rw [hten]
    positivity
  exact Nat.mul_pos (by exact_mod_cast hnum) (baseRatio_spec 2 (by decide) i.exponent).2

theorem exists_scale :
    ∃ c : ℚ, 0 < c ∧ i.unit e * c = 2 ^ i.exponent ∧ i.step e * c = 10 ^ e := by
  have hstep : (0 : ℚ) < i.step e := by exact_mod_cast i.step_pos e
  have hunit : (i.unit e : ℚ) * 10 ^ e = 2 ^ i.exponent * i.step e := by
    push_cast [unit, step, (baseRatio_spec 2 (by decide) i.exponent).1,
      (baseRatio_spec 10 (by decide) e).1]
    ring
  refine ⟨10 ^ e / i.step e, by positivity, ?_, ?_⟩
  · rw [← mul_div_assoc, hunit, mul_div_assoc, div_self hstep.ne', mul_one]
  · rw [mul_div_cancel₀ _ hstep.ne']

theorem contains_iff (n : Nat) :
    i.contains (i.unit e) (i.step e) n = true ↔ i.Holds (n * 10 ^ e) := by
  obtain ⟨c, hc, hunit, hstep⟩ := i.exists_scale e
  have hle : ∀ a b : Nat, a ≤ b ↔ (a : ℚ) * c ≤ b * c := by
    intro a b
    rw [mul_le_mul_iff_left₀ hc, Nat.cast_le]
  have hlt : ∀ a b : Nat, a < b ↔ (a : ℚ) * c < b * c := by
    intro a b
    rw [mul_lt_mul_iff_left₀ hc, Nat.cast_lt]
  rw [contains]
  cases hcl : i.closed with
  | true =>
    simp only [if_true, Bool.and_eq_true, decide_eq_true_eq, hle, Nat.cast_mul, mul_assoc, hunit, hstep]
    exact ⟨fun h => ⟨h.1, h.2, fun ho => absurd ho (by simp [hcl])⟩, fun h => ⟨h.low_le, h.le_high⟩⟩
  | false =>
    simp only [Bool.false_eq_true, if_false, Bool.and_eq_true, decide_eq_true_eq, hlt, Nat.cast_mul,
      mul_assoc, hunit, hstep]
    exact ⟨fun h => ⟨h.1.le, h.2.le, fun _ => h⟩, fun h => h.inside hcl⟩

theorem onGrid_eq : i.onGrid e =
    let below := i.value * i.unit e / i.step e
    let lower := 0 < below && i.contains (i.unit e) (i.step e) below
    let upper := i.contains (i.unit e) (i.step e) (below + 1)
    let nearerBelow := 2 * (i.value * i.unit e) < (2 * below + 1) * i.step e
    if lower && (!upper || nearerBelow) then some ⟨below, e⟩
    else if upper then some ⟨below + 1, e⟩
    else none := rfl

variable {i e}

theorem holds_of_onGrid {s : Scaled} (h : i.onGrid e = some s) : i.Holds s.value := by
  rw [onGrid_eq] at h
  dsimp only at h
  split at h
  · rename_i hb
    cases h
    simp only [Bool.and_eq_true] at hb
    exact (i.contains_iff e _).1 hb.1.2
  · split at h
    · rename_i hu
      cases h
      exact (i.contains_iff e _).1 hu
    · cases h

theorem onGrid_ne_none (hlow : i.low < i.value) (hhigh : i.value < i.high) {n : Nat} (hn : 0 < n)
    (h : (n : ℚ) * 10 ^ e = i.value * 2 ^ i.exponent) : i.onGrid e ≠ none := by
  have hpos : (0 : ℚ) < 2 ^ i.exponent := by positivity
  have hlow' : (i.low : ℚ) < i.value := by exact_mod_cast hlow
  have hhigh' : (i.value : ℚ) < i.high := by exact_mod_cast hhigh
  have hholds : i.Holds (n * 10 ^ e) := by
    rw [h]
    have hl := (mul_lt_mul_iff_left₀ hpos).2 hlow'
    have hr := (mul_lt_mul_iff_left₀ hpos).2 hhigh'
    exact ⟨hl.le, hr.le, fun _ => ⟨hl, hr⟩⟩
  have hbelow : i.value * i.unit e / i.step e = n := by
    obtain ⟨c, hc, hunit, hstep⟩ := i.exists_scale e
    refine Nat.div_eq_of_eq_mul_left (i.step_pos e) ?_
    rw [← hunit, ← hstep, ← mul_assoc, ← mul_assoc] at h
    exact_mod_cast (mul_right_cancel₀ hc.ne' h).symm
  rw [onGrid_eq, hbelow]
  simp only [(i.contains_iff e n).2 hholds, hn, decide_true, Bool.and_true, Bool.true_and]
  cases i.contains (i.unit e) (i.step e) (n + 1) with
  | false => simp
  | true =>
    rw [if_pos rfl]
    split <;> simp

theorem exists_point (i : Interval) (h : 0 < i.value) :
    ∃ n : Nat, 0 < n ∧ (n : ℚ) * 10 ^ (-((-i.exponent).toNat : Int)) = i.value * 2 ^ i.exponent := by
  by_cases he : 0 ≤ i.exponent
  · obtain ⟨k, hk⟩ := Int.eq_ofNat_of_zero_le he
    refine ⟨i.value * 2 ^ k, by positivity, ?_⟩
    simp [hk]
  · obtain ⟨k, hk⟩ := Int.eq_ofNat_of_zero_le (show 0 ≤ -i.exponent by omega)
    refine ⟨i.value * 5 ^ k, by positivity, ?_⟩
    have hexp : i.exponent = -(k : Int) := by omega
    have hten : (10 : ℚ) = 2 * 5 := by norm_num
    rw [hk, Int.toNat_natCast, hexp, hten, mul_zpow]
    simp only [zpow_neg, zpow_natCast, Nat.cast_mul, Nat.cast_pow, Nat.cast_ofNat]
    field_simp

theorem holds_shortest (i : Interval) (hlow : i.low < i.value) (hhigh : i.value < i.high) :
    i.Holds i.shortest.value := by
  obtain ⟨n, hn, hpoint⟩ := i.exists_point (Nat.zero_lt_of_lt hlow)
  have hlast := onGrid_ne_none hlow hhigh hn hpoint
  rw [shortest]
  generalize (Digits.ofNat (i.value * (powerRatio i.exponent).1 / (powerRatio i.exponent).2)).length = top
  cases hfound : ((List.range ((top : Int).toNat + (-i.exponent).toNat + 1)).map
      fun (k : Nat) => (top : Int) - (k : Int)).findSome? i.onGrid with
  | none =>
    refine absurd (List.findSome?_eq_none_iff.1 hfound _ (List.mem_map.2 ?_)) hlast
    exact ⟨top + (-i.exponent).toNat, List.mem_range.2 (by omega), by omega⟩
  | some s =>
    obtain ⟨e, -, hgrid⟩ := List.exists_of_findSome?_eq_some hfound
    exact holds_of_onGrid hgrid

end Interval

section Intervals

variable {f : FloatFormat} {s s' : Nat} {e e' : Int} {q : ℚ}

theorem low_lt_value (hs : 0 < s) (f : FloatFormat) (e : Int) :
    (interval f s e).low < (interval f s e).value := by
  simp only [interval]
  split <;> omega

theorem value_lt_high (f : FloatFormat) (s : Nat) (e : Int) :
    (interval f s e).value < (interval f s e).high := by
  simp only [interval]
  omega

theorem high_le_low (h : f.IsFinite s e) (h' : f.IsFinite s' e') (hlt : e < e' ∨ e = e' ∧ s < s') :
    (interval f s e).high ≤ (interval f s' e').low * 2 ^ (e' - e).toNat ∧
      (s % 2 = 0 → s' % 2 = 0 →
        (interval f s e).high < (interval f s' e').low * 2 ^ (e' - e).toNat) := by
  have hs := h.lt
  have hs' := h'.le_of_lt
  have hleast := h.leastExponent_le
  have hpow : Nat.pow 2 f.fractionBits = 2 ^ f.fractionBits := rfl
  have hone := Nat.two_pow_pos f.fractionBits
  simp only [interval, hpow]
  generalize 2 ^ f.fractionBits = top at *
  rcases hlt with hlt | ⟨rfl, hlt⟩
  · -- Above the least exponent a significand has its leading bit.
    have hlead := hs' (by omega)
    have htwo : 2 ≤ 2 ^ (e' - e).toNat := by
      obtain ⟨k, hk⟩ : ∃ k, (e' - e).toNat = k + 1 := ⟨(e' - e).toNat - 1, by omega⟩
      rw [hk, Nat.pow_succ]
      have := Nat.two_pow_pos k
      omega
    generalize 2 ^ (e' - e).toNat = p at htwo
    split
    · have hmul := Nat.mul_le_mul_left (4 * s' - 1) htwo
      omega
    · rename_i hne
      have hmul := Nat.mul_le_mul_left (4 * s' - 2) htwo
      have hgap : s' ≠ top := fun he => hne ⟨he, by omega⟩
      omega
  · simp only [Int.sub_self, Int.toNat_zero, Nat.pow_zero, Nat.mul_one]
    split
    · omega
    · omega

theorem not_holds_of_lt (h : f.IsFinite s e) (h' : f.IsFinite s' e')
    (hlt : e < e' ∨ e = e' ∧ s < s') (hq : (interval f s e).Holds q)
    (hq' : (interval f s' e').Holds q) : False := by
  obtain ⟨hle, hstrict⟩ := high_le_low h h' hlt
  have hpos : (0 : ℚ) < 2 ^ (e - 2) := by positivity
  have hscale : ((interval f s' e').low : ℚ) * 2 ^ (e' - 2) =
      ((interval f s' e').low * 2 ^ (e' - e).toNat : Nat) * 2 ^ (e - 2) := by
    have hsum : e' - 2 = ((e' - e).toNat : Int) + (e - 2) := by omega
    rw [hsum, zpow_add₀ two_ne_zero, zpow_natCast]
    push_cast
    ring
  have hends : ((interval f s e).high : ℚ) * 2 ^ (e - 2) ≤ (interval f s' e').low * 2 ^ (e' - 2) := by
    rw [hscale, mul_le_mul_iff_left₀ hpos, Nat.cast_le]
    exact hle
  have hhigh : q ≤ (interval f s e).high * 2 ^ (e - 2) := hq.le_high
  have hlow : (interval f s' e').low * 2 ^ (e' - 2) ≤ q := hq'.low_le
  by_cases hs : s % 2 = 0
  · by_cases hs' : s' % 2 = 0
    · have hlt' : ((interval f s e).high : ℚ) * 2 ^ (e - 2) < (interval f s' e').low * 2 ^ (e' - 2) := by
        rw [hscale, mul_lt_mul_iff_left₀ hpos, Nat.cast_lt]
        exact hstrict hs hs'
      exact absurd (hlow.trans hhigh) (not_le.2 hlt')
    · exact absurd (hhigh.trans hends) (not_le.2 (hq'.inside (beq_eq_false_iff_ne.2 hs')).1)
  · exact absurd (hends.trans hlow) (not_le.2 (hq.inside (beq_eq_false_iff_ne.2 hs)).2)

theorem eq_of_holds (h : f.IsFinite s e) (h' : f.IsFinite s' e') (hq : (interval f s e).Holds q)
    (hq' : (interval f s' e').Holds q) : s = s' ∧ e = e' := by
  rcases lt_trichotomy e e' with hlt | he | hlt
  · exact (not_holds_of_lt h h' (Or.inl hlt) hq hq').elim
  · rcases lt_trichotomy s s' with hlt | hs | hlt
    · exact (not_holds_of_lt h h' (Or.inr ⟨he, hlt⟩) hq hq').elim
    · exact ⟨hs, he⟩
    · exact (not_holds_of_lt h' h (Or.inr ⟨he.symm, hlt⟩) hq' hq).elim
  · exact (not_holds_of_lt h' h (Or.inl hlt) hq' hq).elim

theorem holds_ofFinite (hs : 0 < s) (f : FloatFormat) (e : Int) :
    (interval f s e).Holds (ofFinite f s e).value := by
  rw [ofFinite, if_neg hs.ne']
  exact (interval f s e).holds_shortest (low_lt_value hs f e) (value_lt_high f s e)

theorem value_ofFinite_pos (hs : 0 < s) (f : FloatFormat) (e : Int) : 0 < (ofFinite f s e).value := by
  have hlow : 0 < (interval f s e).low := by
    simp only [interval]
    split <;> omega
  have hpos : (0 : ℚ) < (interval f s e).low * 2 ^ (interval f s e).exponent := by positivity
  exact hpos.trans_le (holds_ofFinite hs f e).low_le

theorem value_ofFinite_zero (f : FloatFormat) (e : Int) : (ofFinite f 0 e).value = 0 := by
  simp [ofFinite, Scaled.value]

theorem ofFinite_value_injective (h : f.IsFinite s e) (h' : f.IsFinite s' e')
    (hv : (ofFinite f s e).value = (ofFinite f s' e').value) : s = s' ∧ e = e' := by
  -- A zero has the least exponent, so both zeros of one sign are one number.
  have hleast : ∀ {e}, f.IsFinite 0 e → e = f.leastExponent := by
    intro e h
    by_contra hne
    have hlt := lt_of_le_of_ne h.leastExponent_le (Ne.symm hne)
    exact absurd (h.le_of_lt hlt) (not_le.2 (Nat.two_pow_pos _))
  rcases Nat.eq_zero_or_pos s with rfl | hs <;> rcases Nat.eq_zero_or_pos s' with rfl | hs'
  · exact ⟨rfl, (hleast h).trans (hleast h').symm⟩
  · rw [value_ofFinite_zero] at hv
    exact absurd hv (value_ofFinite_pos hs' f e').ne
  · rw [value_ofFinite_zero] at hv
    exact absurd hv (value_ofFinite_pos hs f e).ne'
  · exact eq_of_holds h h' (holds_ofFinite hs f e) (hv ▸ holds_ofFinite hs' f e')

end Intervals

/-- The text is a decimal, with a point or without one, of that value. -/
inductive Writes : List Char → ℚ → Prop
  | whole (ds : List Char) (ne_nil : ds ≠ []) (digits : ∀ c ∈ ds, c.isDigit = true) :
      Writes ds (Nat.ofDigitChars 10 ds 0)
  | point (ds fs : List Char) (ne_nil : ds ≠ []) (digits : ∀ c ∈ ds, c.isDigit = true)
      (fraction : ∀ c ∈ fs, c.isDigit = true) :
      Writes (ds ++ '.' :: fs) (Nat.ofDigitChars 10 (ds ++ fs) 0 / 10 ^ fs.length)

namespace Writes

variable {cs : List Char} {q r : ℚ}

theorem unique (h : Writes cs q) (h' : Writes cs r) : q = r := by
  have hpoint : ∀ ds : List Char, (∀ c ∈ ds, c.isDigit = true) → '.' ∉ ds := by
    intro ds hd hm
    exact absurd (hd _ hm) (by decide)
  generalize hcs : cs = ds at h'
  cases h with
  | whole _ hne hd =>
    cases h' with
    | whole => rw [hcs]
    | point => exact absurd (hcs ▸ List.mem_append_right _ List.mem_cons_self) (hpoint _ hd)
  | point _ _ hne hd hf =>
    cases h' with
    | whole _ hne' hd' => exact absurd (hcs ▸ List.mem_append_right _ List.mem_cons_self) (hpoint _ hd')
    | point _ _ hne' hd' hf' =>
      obtain ⟨hwhole, hfraction⟩ := run_append_inj hd hd' (stops_cons (by decide) _)
        (stops_cons (by decide) _) hcs
      rw [hwhole, (List.cons.inj hfraction).2]

theorem exists_cons (h : Writes cs q) : ∃ c rest, cs = c :: rest ∧ c.isDigit = true := by
  cases h with
  | whole _ hne hd =>
    obtain ⟨c, rest, rfl⟩ := List.exists_cons_of_ne_nil hne
    exact ⟨c, rest, rfl, hd c List.mem_cons_self⟩
  | point _ _ hne hd hf =>
    obtain ⟨c, rest, rfl⟩ := List.exists_cons_of_ne_nil hne
    exact ⟨c, _, rfl, hd c List.mem_cons_self⟩

theorem isDigit_or_eq_point (h : Writes cs q) : ∀ c ∈ cs, c.isDigit = true ∨ c = '.' := by
  cases h with
  | whole _ hne hd => exact fun c hc => Or.inl (hd c hc)
  | point _ _ hne hd hf =>
    intro c hc
    rcases List.mem_append.1 hc with hc | hc
    · exact Or.inl (hd c hc)
    · exact (List.mem_cons.1 hc).elim Or.inr fun hc => Or.inl (hf c hc)

theorem withPoint (h : Writes cs q) :
    Writes (cs ++ if cs.contains '.' then [] else ['.', '0']) q := by
  split
  · rw [List.append_nil]
    exact h
  · rename_i hc
    cases h with
    | whole _ hne hd =>
      have hpoint := Writes.point cs ['0'] hne hd (by simp)
      rw [Nat.ofDigitChars_append] at hpoint
      convert hpoint using 1
      simp [Nat.ofDigitChars]
    | point _ _ hne hd hf => simp at hc

end Writes

theorem Scaled.writes_positional (s : Scaled) : Writes s.positional s.value := by
  rw [positional, value]
  split
  · rename_i he
    obtain ⟨k, hk⟩ := Int.eq_ofNat_of_zero_le he
    split
    · rename_i hs
      convert Writes.whole ['0'] (by simp) (by simp) using 1
      simp [hs, Nat.ofDigitChars]
    · have hdigits : ∀ c ∈ Digits.ofNat s.digits ++ List.replicate k '0', c.isDigit = true := by
        intro c hc
        rcases List.mem_append.1 hc with hc | hc
        · exact Digits.isDigit_of_mem_ofNat hc
        · rw [(List.mem_replicate.1 hc).2]
          rfl
      rw [hk, Int.toNat_natCast]
      convert Writes.whole _ (by simp [Digits.ofNat_ne_nil]) hdigits using 1
      rw [Nat.ofDigitChars_append, Nat.ofDigitChars_replicate_zero, Digits.ofNat,
        Nat.ofDigitChars_ten_toDigits]
      push_cast
      rw [zpow_natCast, mul_comm]
  · rename_i he
    obtain ⟨k, hk⟩ := Int.eq_ofNat_of_zero_le (show 0 ≤ -s.exponent by omega)
    have hexp : s.exponent = -(k : Int) := by omega
    have hlen := Digits.le_length_padded (k + 1) s.digits
    rw [hk, Int.toNat_natCast, hexp]
    dsimp only
    generalize hcs : Digits.padded (k + 1) s.digits = cs at hlen
    have hdigits : ∀ c ∈ cs, c.isDigit = true := fun c hc => Digits.isDigit_of_mem_padded (hcs ▸ hc)
    convert Writes.point (cs.take (cs.length - k)) (cs.drop (cs.length - k)) ?_
      (fun c hc => hdigits c (List.mem_of_mem_take hc)) (fun c hc => hdigits c (List.mem_of_mem_drop hc))
      using 1
    · have hfraction : (cs.drop (cs.length - k)).length = k := by
        rw [List.length_drop]
        omega
      rw [hfraction, List.take_append_drop, ← hcs, Digits.ofDigitChars_padded, zpow_neg, zpow_natCast,
        div_eq_mul_inv]
    · rw [ne_eq, ← List.length_eq_zero_iff, List.length_take]
      omega

theorem writes_text (f : FloatFormat) (s : Nat) (e : Int) :
    Writes (text f s e) (ofFinite f s e).value :=
  (ofFinite f s e).writes_positional

end RemoteQuery.Shortest
