import RemoteQuery.Number.Decimal
import RemoteQuery.Proofs.Text.Numerals

/-!
# Texts of decimals

The text of a decimal has a sign, a whole part and the digits after the point, as many as its scale. So it
tells sign, scale and mantissa apart. It is read positionally, and then a zero has lost its sign.
-/

namespace RemoteQuery

namespace Decimal

variable (d : Decimal)

def digits : List Char := Digits.padded (d.scale + 1) d.mantissa

def whole : List Char := d.digits.take (d.digits.length - d.scale)

def fraction : List Char := d.digits.drop (d.digits.length - d.scale)

def tail : List Char := if d.fraction = [] then [] else '.' :: d.fraction

theorem text_eq : d.text = (if d.negative then ['-'] else []) ++ (d.whole ++ d.tail) :=
  List.append_assoc ..

theorem whole_append_fraction : d.whole ++ d.fraction = d.digits := List.take_append_drop ..

theorem isDigit_of_mem_whole {c : Char} (h : c ∈ d.whole) : c.isDigit = true :=
  Digits.isDigit_of_mem_padded (List.mem_of_mem_take h)

theorem isDigit_of_mem_fraction {c : Char} (h : c ∈ d.fraction) : c.isDigit = true :=
  Digits.isDigit_of_mem_padded (List.mem_of_mem_drop h)

theorem length_fraction : d.fraction.length = d.scale := by
  have hlen : d.scale + 1 ≤ d.digits.length := Digits.le_length_padded _ _
  rw [fraction, List.length_drop]
  omega

theorem whole_ne_nil : d.whole ≠ [] := by
  have hlen : d.scale + 1 ≤ d.digits.length := Digits.le_length_padded _ _
  rw [whole, ne_eq, ← List.length_eq_zero_iff, List.length_take]
  omega

theorem stops_tail : Stops Char.isDigit d.tail := by
  rw [tail]
  split
  · exact stops_nil _
  · exact stops_cons (by decide) _

theorem tail_injective {d e : Decimal} (h : d.tail = e.tail) : d.fraction = e.fraction := by
  rw [tail, tail] at h
  split at h <;> split at h <;> simp_all

theorem exists_whole_eq_cons : ∃ c cs, d.whole = c :: cs ∧ c.isDigit = true := by
  obtain ⟨c, cs, h⟩ := List.exists_cons_of_ne_nil d.whole_ne_nil
  exact ⟨c, cs, h, d.isDigit_of_mem_whole (h ▸ List.mem_cons_self)⟩

theorem eq_of_parts {d e : Decimal} (hs : d.negative = e.negative) (hm : d.mantissa = e.mantissa)
    (hc : d.scale = e.scale) : d = e := by
  cases d
  cases e
  simp_all

theorem text_injective {d e : Decimal} (h : d.text = e.text) : d = e := by
  obtain ⟨b, bs, hb, hbd⟩ := d.exists_whole_eq_cons
  obtain ⟨c, cs, hc, hcd⟩ := e.exists_whole_eq_cons
  rw [text_eq, text_eq] at h
  have hsign : d.negative = e.negative ∧ d.whole ++ d.tail = e.whole ++ e.tail := by
    cases hd : d.negative <;> cases he : e.negative
    · simpa [hd, he] using h
    · rw [hd, he, hb] at h
      exact absurd (List.cons.inj h).1 (ne_of_class hbd rfl)
    · rw [hd, he, hc] at h
      exact absurd (List.cons.inj h).1.symm (ne_of_class hcd rfl)
    · simpa [hd, he] using h
  obtain ⟨hw, ht⟩ := run_append_inj (fun _ => d.isDigit_of_mem_whole) (fun _ => e.isDigit_of_mem_whole)
    d.stops_tail e.stops_tail hsign.2
  have hf := tail_injective ht
  have hscale : d.scale = e.scale := by rw [← length_fraction, hf, length_fraction]
  refine eq_of_parts hsign.1 ?_ hscale
  have hdigits : d.digits = e.digits := by rw [← whole_append_fraction, hw, hf, whole_append_fraction]
  rw [← Digits.ofDigitChars_padded (d.scale + 1) d.mantissa, ← digits, hdigits, digits,
    Digits.ofDigitChars_padded]

def settled : Decimal := { d with negative := d.negative && d.mantissa != 0 }

theorem settled_eq_self {d : Decimal} (h : d.mantissa = 0 → d.negative = false) : d.settled = d := by
  refine eq_of_parts ?_ rfl rfl
  by_cases hm : d.mantissa = 0
  · simp [settled, hm, h hm]
  · simp [settled, hm]

theorem le_ofDigitChars (ds : List Char) (n : Nat) : n ≤ Nat.ofDigitChars 10 ds n := by
  rw [Nat.ofDigitChars_eq_ofDigitChars_zero]
  exact Nat.le_add_right_of_le (Nat.le_mul_of_pos_left n (Nat.pow_pos (by decide)))

variable {n : Nat} {ds rest : List Char}

theorem scan_whole (hd : ∀ c ∈ ds, c.isDigit = true) (hn : Nat.ofDigitChars 10 ds n < mantissaLimit)
    (started : Bool) :
    scan started n none (ds ++ rest) =
      scan (started || !ds.isEmpty) (Nat.ofDigitChars 10 ds n) none rest := by
  induction ds generalizing started n with
  | nil => simp
  | cons c ds ih =>
    obtain ⟨hc, hds⟩ := List.forall_mem_cons.1 hd
    rw [Nat.ofDigitChars_cons] at hn
    -- The digits that follow do not make the value any less, so it fits after each of them.
    have hfirst := Nat.lt_of_le_of_lt (le_ofDigitChars ds _) hn
    rw [List.cons_append, scan, if_neg (ne_of_class hc (by decide)),
      if_neg (ne_of_class hc (by decide)), if_pos hc]
    dsimp only
    rw [if_pos hfirst, ih hds hn true, Nat.ofDigitChars_cons]
    simp

theorem scan_fraction (hd : ∀ c ∈ ds, c.isDigit = true)
    (hn : Nat.ofDigitChars 10 ds n < mantissaLimit) {s : Nat} (hs : s + ds.length ≤ maxScale) :
    scan true n (some s) ds = some (Nat.ofDigitChars 10 ds n, s + ds.length) := by
  induction ds generalizing n s with
  | nil => simp [scan]
  | cons c ds ih =>
    obtain ⟨hc, hds⟩ := List.forall_mem_cons.1 hd
    rw [Nat.ofDigitChars_cons] at hn
    have hfirst := Nat.lt_of_le_of_lt (le_ofDigitChars ds _) hn
    rw [List.length_cons] at hs
    rw [scan, if_neg (ne_of_class hc (by decide)), if_neg (ne_of_class hc (by decide)), if_pos hc]
    dsimp only
    rw [if_pos ⟨by omega, hfirst⟩, ih hds hn (by omega), Nat.ofDigitChars_cons, List.length_cons]
    congr 2
    omega

theorem scan_digits : scan false 0 none (d.whole ++ d.tail) = some (d.mantissa, d.scale) := by
  have hvalue : Nat.ofDigitChars 10 d.fraction (Nat.ofDigitChars 10 d.whole 0) = d.mantissa := by
    rw [← Nat.ofDigitChars_append, whole_append_fraction, digits, Digits.ofDigitChars_padded]
  have hlimit := Nat.lt_of_le_of_lt (Nat.le_of_eq hvalue) d.mantissa_lt
  have hwhole := Nat.lt_of_le_of_lt (le_ofDigitChars d.fraction _) hlimit
  have hstarted : (false || !d.whole.isEmpty) = true := by simpa using d.whole_ne_nil
  rw [scan_whole (fun _ => d.isDigit_of_mem_whole) hwhole, hstarted, tail]
  split
  · rename_i h
    rw [h, Nat.ofDigitChars_nil] at hvalue
    have hscale := d.length_fraction
    rw [h] at hscale
    rw [scan, hvalue, ← hscale]
    rfl
  · rw [scan, if_neg (by decide), if_pos rfl, if_pos rfl,
      scan_fraction (fun _ => d.isDigit_of_mem_fraction) hlimit (by
        rw [length_fraction, Nat.zero_add]
        exact d.scale_le), hvalue, length_fraction, Nat.zero_add]

theorem readPositional?_text : readPositional? d.text = some d.settled := by
  have hparts : ofParts? (d.negative && d.mantissa != 0) d.mantissa d.scale = some d.settled :=
    dif_pos ⟨d.mantissa_lt, d.scale_le⟩
  have hscan := d.scan_digits
  cases hs : d.negative with
  | true =>
    have htext : d.text = '-' :: (d.whole ++ d.tail) := by simp [text_eq, hs]
    rw [hs] at hparts
    rw [htext, readPositional?, hscan]
    exact hparts
  | false =>
    obtain ⟨c, cs, hw, hc⟩ := d.exists_whole_eq_cons
    have htext : d.text = c :: (cs ++ d.tail) := by simp [text_eq, hs, hw]
    rw [hw, List.cons_append] at hscan
    rw [hs] at hparts
    rw [htext, readPositional?, hscan]
    · exact hparts
    · exact fun _ he => ne_of_class hc (by decide) (List.cons.inj he).1
    · exact fun _ he => ne_of_class hc (by decide) (List.cons.inj he).1

theorem read?_text : read? d.text = some d.settled := by
  rw [read?, readPositional?_text]
  rfl

end Decimal
end RemoteQuery
