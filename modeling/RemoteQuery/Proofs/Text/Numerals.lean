import Mathlib.Algebra.Group.Nat.Defs
import RemoteQuery.Text.Digits
import RemoteQuery.Text.Hex

/-!
# Numerals in a text

A run of characters of one class ends where the class does, so what is written in that class can be cut off
again if something else follows. Numerals of a given width, decimal or hexadecimal, have the values that
they are written for.
-/

namespace RemoteQuery

def Stops (p : Char → Bool) (rest : List Char) : Prop := ∀ c ∈ rest.head?, p c = false

section Runs

variable {p : Char → Bool} {w v r s : List Char}

theorem ne_of_class {c m : Char} (hc : p c = true) (hm : p m = false) : c ≠ m := by
  rintro rfl
  rw [hc] at hm
  cases hm

theorem stops_nil (p : Char → Bool) : Stops p [] := fun _ h => nomatch h

theorem stops_cons {c : Char} (h : p c = false) (r : List Char) : Stops p (c :: r) := by
  intro b hb
  cases hb
  exact h

theorem takeWhile_append_of_stops (hw : ∀ c ∈ w, p c = true) (hr : Stops p r) :
    (w ++ r).takeWhile p = w := by
  rw [List.takeWhile_append_of_pos hw]
  cases r with
  | nil => simp
  | cons c r => rw [List.takeWhile_cons_of_neg (by simp [hr c rfl]), List.append_nil]

theorem dropWhile_append_of_stops (hw : ∀ c ∈ w, p c = true) (hr : Stops p r) :
    (w ++ r).dropWhile p = r := by
  rw [List.dropWhile_append_of_pos hw]
  cases r with
  | nil => rfl
  | cons c r => rw [List.dropWhile_cons_of_neg (by simp [hr c rfl])]

theorem run_append_inj (hw : ∀ c ∈ w, p c = true) (hv : ∀ c ∈ v, p c = true) (hr : Stops p r)
    (hs : Stops p s) (h : w ++ r = v ++ s) : w = v ∧ r = s :=
  ⟨by rw [← takeWhile_append_of_stops hw hr, h, takeWhile_append_of_stops hv hs],
    by rw [← dropWhile_append_of_stops hw hr, h, dropWhile_append_of_stops hv hs]⟩

end Runs

theorem mapM_eq_some_map {α β : Type} {f : α → Option β} {g : α → β} {l : List α}
    (h : ∀ a ∈ l, f a = some (g a)) : l.mapM f = some (l.map g) := by
  induction l with
  | nil => rfl
  | cons a l ih =>
    rw [List.mapM_cons, h a List.mem_cons_self, ih fun b hb => h b (List.mem_cons_of_mem a hb)]
    rfl

namespace Digits

variable {width m n : Nat} {a b : List Char}

theorem isDigit_of_mem_padded {c : Char} (h : c ∈ padded width n) : c.isDigit = true := by
  rcases List.mem_append.1 h with h | h
  · rw [(List.mem_replicate.1 h).2]
    rfl
  · exact isDigit_of_mem_ofNat h

theorem padded_ne_nil (width n : Nat) : padded width n ≠ [] := by
  simp [padded, ofNat_ne_nil]

@[simp] theorem ofDigitChars_padded (width n : Nat) :
    Nat.ofDigitChars 10 (padded width n) 0 = n := by
  rw [padded, Nat.ofDigitChars_append, Nat.ofDigitChars_replicate_zero, Nat.mul_zero, ofNat,
    Nat.ofDigitChars_ten_toDigits]

theorem le_length_padded (width n : Nat) : width ≤ (padded width n).length := by
  rw [padded, List.length_append, List.length_replicate]
  omega

theorem length_padded (hw : 0 < width) (h : n < 10 ^ width) : (padded width n).length = width := by
  have hn : (ofNat n).length ≤ width := (Nat.length_toDigits_le_iff (by decide) hw).2 h
  rw [padded, List.length_append, List.length_replicate]
  omega

theorem padded_append_inj (ha : Stops Char.isDigit a) (hb : Stops Char.isDigit b)
    (h : padded width m ++ a = padded width n ++ b) : m = n ∧ a = b := by
  obtain ⟨he, hrest⟩ := run_append_inj (fun _ => isDigit_of_mem_padded)
    (fun _ => isDigit_of_mem_padded) ha hb h
  refine ⟨?_, hrest⟩
  rw [← ofDigitChars_padded width m, he, ofDigitChars_padded]

end Digits

namespace Hex

theorem digits_succ (width n : Nat) :
    digits (width + 1) n = digits width (n / 16) ++ [Nat.digitChar (n % 16)] := by
  rw [digits, List.range_succ, List.map_append, digits]
  congr 1
  · refine List.map_congr_left fun i hi => ?_
    have hlt := List.mem_range.1 hi
    have hpow : Nat.pow 16 (width + 1 - 1 - i) = 16 * Nat.pow 16 (width - 1 - i) := by
      have hsucc : width + 1 - 1 - i = (width - 1 - i) + 1 := by omega
      rw [hsucc, Nat.mul_comm]
      rfl
    rw [hpow, Nat.div_div_eq_div_mul]
  · simp

theorem exists_of_mem_digits {width n : Nat} {c : Char} (h : c ∈ digits width n) :
    ∃ d : Fin 16, c = Nat.digitChar d := by
  obtain ⟨i, -, rfl⟩ := List.mem_map.1 h
  exact ⟨⟨_, Nat.mod_lt _ (by decide)⟩, rfl⟩

theorem value?_digitChar {d : Nat} (h : d < 16) : value? (Nat.digitChar d) = some d := by
  have hall : ∀ d : Fin 16, value? (Nat.digitChar d) = some d.1 := by decide
  exact hall ⟨d, h⟩

theorem value?_toUpper_digitChar {d : Nat} (h : d < 16) :
    value? (Nat.digitChar d).toUpper = some d := by
  have hall : ∀ d : Fin 16, value? (Nat.digitChar d).toUpper = some d.1 := by decide
  exact hall ⟨d, h⟩

theorem toNat?_map_digits {f : Char → Char} (hf : ∀ d < 16, value? (f (Nat.digitChar d)) = some d)
    (width : Nat) {n : Nat} (h : n < 16 ^ width) : toNat? ((digits width n).map f) = some n := by
  have hread : ∀ width n, ∃ ds : List Nat, ((digits width n).map f).mapM value? = some ds ∧
      ds.foldl (fun n d => 16 * n + d) 0 = n % 16 ^ width := by
    intro width
    induction width with
    | zero => exact fun n => ⟨[], rfl, by simp [Nat.mod_one]⟩
    | succ width ih =>
      intro n
      obtain ⟨ds, hds, hvalue⟩ := ih (n / 16)
      refine ⟨ds ++ [n % 16], ?_, ?_⟩
      · rw [digits_succ, List.map_append, List.mapM_append, hds, List.map_singleton, List.mapM_cons,
          hf _ (Nat.mod_lt n (by decide))]
        rfl
      · rw [List.foldl_append, hvalue, List.foldl_cons, List.foldl_nil, Nat.pow_succ',
          Nat.mod_mul, Nat.add_comm]
  obtain ⟨ds, hds, hvalue⟩ := hread width n
  rw [toNat?, hds, Option.map_some, hvalue, Nat.mod_eq_of_lt h]

end Hex
end RemoteQuery
