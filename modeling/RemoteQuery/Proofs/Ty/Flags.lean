import Mathlib.Data.List.Pairwise
import RemoteQuery.Ty.Enumeration

/-!
# Taking a combined value apart

A value stands for the set of its bits. The descent through the members of an enumeration takes a member
when all of its bits are still there, and clears them. So what is taken lies within the value, no two of
the values taken overlap, and the rest has the bits that none of them has. A member within the value is
passed over only where one that is not smaller was taken and overlaps it.
-/

namespace RemoteQuery

namespace Flags

variable {raw v w : Int64} {vs ws : List Int64} {i : Nat}

def bit (raw : Int64) (i : Nat) : Bool := raw.toBitVec.getLsbD i

theorem bit_ext (h : ∀ i, bit v i = bit w i) : v = w :=
  Int64.toBitVec_inj.1 (BitVec.eq_of_getLsbD_eq fun i _ => h i)

@[simp] theorem bit_zero (i : Nat) : bit 0 i = false := by simp [bit]

@[simp] theorem bit_and (v w : Int64) (i : Nat) : bit (v &&& w) i = (bit v i && bit w i) := by
  simp [bit]

@[simp] theorem bit_or (v w : Int64) (i : Nat) : bit (v ||| w) i = (bit v i || bit w i) := by
  simp [bit]

theorem bit_clear (raw v : Int64) (i : Nat) : bit (raw &&& ~~~v) i = (bit raw i && !bit v i) := by
  by_cases hi : i < 64
  · simp [bit, hi]
  · simp [bit, BitVec.getLsbD_of_ge raw.toBitVec i (by omega)]

theorem within_iff : raw &&& v = v ↔ ∀ i, bit v i = true → bit raw i = true := by
  constructor
  · intro h i hi
    rw [← h, bit_and, Bool.and_eq_true] at hi
    exact hi.1
  · intro h
    apply bit_ext
    intro i
    have hi := h i
    rw [bit_and]
    cases hv : bit v i <;> simp_all

theorem disjoint_iff : v &&& w = 0 ↔ ∀ i, bit v i = true → bit w i = false := by
  constructor
  · intro h i hi
    have hand := congrArg (bit · i) h
    simpa [hi] using hand
  · intro h
    apply bit_ext
    intro i
    have hi := h i
    rw [bit_and, bit_zero]
    cases hv : bit v i <;> simp_all

instance symm_disjoint : Std.Symm fun v w : Int64 => v &&& w = 0 :=
  ⟨fun v w h => (Int64.and_comm w v).trans h⟩

theorem within_clear_iff : (raw &&& ~~~w) &&& v = v ↔ raw &&& v = v ∧ w &&& v = 0 := by
  simp only [within_iff, disjoint_iff, bit_clear, Bool.and_eq_true, Bool.not_eq_true']
  constructor
  · intro h
    refine ⟨fun i hi => (h i hi).1, fun i hw => ?_⟩
    cases hv : bit v i with
    | false => rfl
    | true => exact absurd (hw.symm.trans (h i hv).2) (by simp)
  · rintro ⟨hraw, hw⟩ i hi
    refine ⟨hraw i hi, ?_⟩
    cases hwi : bit w i with
    | false => rfl
    | true => exact absurd (hi.symm.trans (hw i hwi)) (by simp)

def union (vs : List Int64) : Int64 := vs.foldr (· ||| ·) 0

theorem bit_union (vs : List Int64) (i : Nat) : bit (union vs) i = vs.any (bit · i) := by
  induction vs with
  | nil => exact bit_zero i
  | cons v vs ih =>
    rw [List.any_cons, ← ih]
    exact bit_or v (union vs) i

theorem bit_union_iff : bit (union vs) i = true ↔ ∃ v ∈ vs, bit v i = true := by
  rw [bit_union, List.any_eq_true]

theorem union_eq_of_mem_iff (h : ∀ v, v ∈ vs ↔ v ∈ ws) : union vs = union ws := by
  apply bit_ext
  intro i
  rw [Bool.eq_iff_iff, bit_union_iff, bit_union_iff]
  simp only [h]

end Flags

namespace Enumeration

open Flags

variable {raw : Int64} {m : String × Int64} {ms : List (String × Int64)}

theorem take_of_within (h : raw &&& m.2 = m.2) (ms : List (String × Int64)) :
    take raw (m :: ms) =
      (m :: (take (raw &&& ~~~m.2) ms).1, (take (raw &&& ~~~m.2) ms).2) := by
  rw [take, if_pos h]

theorem take_of_not_within (h : raw &&& m.2 ≠ m.2) (ms : List (String × Int64)) :
    take raw (m :: ms) = take raw ms := by
  rw [take, if_neg h]

theorem take_sublist (raw : Int64) (ms : List (String × Int64)) : (take raw ms).1.Sublist ms := by
  induction ms generalizing raw with
  | nil => exact List.Sublist.refl _
  | cons m ms ih =>
    by_cases h : raw &&& m.2 = m.2
    · rw [take_of_within h]
      exact (ih (raw &&& ~~~m.2)).cons_cons m
    · rw [take_of_not_within h]
      exact (ih raw).cons m

theorem within_of_mem_take (h : m ∈ (take raw ms).1) : raw &&& m.2 = m.2 := by
  induction ms generalizing raw with
  | nil => simp [take] at h
  | cons n ms ih =>
    by_cases hn : raw &&& n.2 = n.2
    · rw [take_of_within hn, List.mem_cons] at h
      rcases h with rfl | h
      · exact hn
      · exact (within_clear_iff.1 (ih h)).1
    · rw [take_of_not_within hn] at h
      exact ih h

theorem take_pairwise (raw : Int64) (ms : List (String × Int64)) :
    (take raw ms).1.Pairwise fun a b => a.2 &&& b.2 = 0 := by
  induction ms generalizing raw with
  | nil => exact List.Pairwise.nil
  | cons m ms ih =>
    by_cases h : raw &&& m.2 = m.2
    · rw [take_of_within h]
      -- the bits of the member are gone when the others are taken
      refine List.Pairwise.cons (fun n hn => ?_) (ih _)
      exact (within_clear_iff.1 (within_of_mem_take hn)).2
    · rw [take_of_not_within h]
      exact ih raw

theorem bit_rest (raw : Int64) (ms : List (String × Int64)) (i : Nat) :
    bit (take raw ms).2 i = (bit raw i && !bit (union ((take raw ms).1.map (·.2))) i) := by
  induction ms generalizing raw with
  | nil => simp [take, bit_union]
  | cons m ms ih =>
    by_cases h : raw &&& m.2 = m.2
    · rw [take_of_within h, ih, bit_clear, List.map_cons, bit_union, bit_union, List.any_cons,
        Bool.not_or, Bool.and_assoc]
    · rw [take_of_not_within h, ih]

theorem rest_eq_zero_iff :
    (take raw ms).2 = 0 ↔ union ((take raw ms).1.map (·.2)) = raw := by
  have hwithin : ∀ i, bit (union ((take raw ms).1.map (·.2))) i = true → bit raw i = true := by
    intro i hi
    obtain ⟨v, hv, hvi⟩ := bit_union_iff.1 hi
    obtain ⟨m, hm, rfl⟩ := List.mem_map.1 hv
    exact within_iff.1 (within_of_mem_take hm) i hvi
  constructor
  · intro h
    apply bit_ext
    intro i
    have hrest := bit_rest raw ms i
    rw [h, bit_zero] at hrest
    cases hraw : bit raw i with
    | true => simpa [hraw] using hrest
    | false => exact Bool.eq_false_iff.2 fun hi => by simp [hwithin i hi] at hraw
  · intro h
    apply bit_ext
    intro i
    rw [bit_rest, h, bit_zero, Bool.and_not_self]

theorem mem_take_or_overlaps (hs : ms.Pairwise fun a b => b.2 ≤ a.2) (hm : m ∈ ms)
    (h : raw &&& m.2 = m.2) :
    m ∈ (take raw ms).1 ∨ ∃ n ∈ (take raw ms).1, m.2 ≤ n.2 ∧ n.2 &&& m.2 ≠ 0 := by
  induction ms generalizing raw with
  | nil => cases hm
  | cons n ms ih =>
    obtain ⟨hn, hs⟩ := List.pairwise_cons.1 hs
    by_cases hin : raw &&& n.2 = n.2
    · rw [take_of_within hin]
      rcases List.mem_cons.1 hm with rfl | hm
      · exact Or.inl List.mem_cons_self
      · by_cases hd : n.2 &&& m.2 = 0
        · rcases ih hs hm (within_clear_iff.2 ⟨h, hd⟩) with ht | ⟨k, hk, hov⟩
          · exact Or.inl (List.mem_cons_of_mem n ht)
          · exact Or.inr ⟨k, List.mem_cons_of_mem n hk, hov⟩
        · exact Or.inr ⟨n, List.mem_cons_self, hn m hm, hd⟩
    · rw [take_of_not_within hin]
      rcases List.mem_cons.1 hm with rfl | hm
      · exact absurd h hin
      · exact ih hs hm h

end Enumeration
end RemoteQuery
