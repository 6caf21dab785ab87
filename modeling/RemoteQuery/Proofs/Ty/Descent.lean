import Mathlib.Data.List.Nodup
import RemoteQuery.Proofs.Ty.Flags

/-!
# When a combined value has symbols

The values that a descent takes are fixed by what they are: members within the combined value, no two of
which overlap, such that every other member within it overlaps a greater one of them. A nonzero value of a
flags enumeration is written with symbols exactly when it is a member or such values have all of its bits.
That other members have these bits together does not suffice: a greater member that overlaps one of them
may be taken first. It does suffice where a greater member has all the bits of each one it overlaps.
-/

namespace RemoteQuery.Enumeration

open Flags

variable {e : Enumeration} {raw v : Int64} {vs ws : List Int64} {ms : List (String × Int64)}

theorem mem_descending {m : String × Int64} : m ∈ e.descending ↔ m ∈ e.members ∧ m.2 ≠ 0 := by
  rw [descending, (List.mergeSort_perm ..).mem_iff, List.mem_filter]
  simp

theorem descending_pairwise (e : Enumeration) : e.descending.Pairwise fun a b => b.2 ≤ a.2 := by
  have htrans : ∀ a b c : String × Int64, decide (b.2 ≤ a.2) = true → decide (c.2 ≤ b.2) = true →
      decide (c.2 ≤ a.2) = true := by
    intro a b c hab hbc
    rw [decide_eq_true_iff] at *
    exact Int64.le_trans hbc hab
  have htotal : ∀ a b : String × Int64, (decide (b.2 ≤ a.2) || decide (a.2 ≤ b.2)) = true := by
    intro a b
    rw [Bool.or_eq_true, decide_eq_true_iff, decide_eq_true_iff]
    exact Int64.le_total b.2 a.2
  exact (List.pairwise_mergeSort htrans htotal _).imp of_decide_eq_true

theorem descending_eq (hperm : (e.members.filter (·.2 != 0)).Perm ms)
    (hms : ms.Pairwise fun a b => b.2 < a.2) : e.descending = ms := by
  have hsame : e.descending.Perm ms := (List.mergeSort_perm ..).trans hperm
  have hvalues : (ms.map (·.2)).Nodup :=
    List.pairwise_map.2 (hms.imp fun hlt => (Int64.ne_of_lt hlt).symm)
  refine hsame.eq_of_pairwise (fun a b ha hb hab hba => ?_) e.descending_pairwise
    (hms.imp Int64.le_of_lt)
  exact List.inj_on_of_nodup_map hvalues (hsame.subset ha) hb (Int64.le_antisymm hba hab)

/-- Values of members within a value, no two of which overlap. A member within it is only missing where a
greater one that overlaps it is there. -/
structure IsDescent (e : Enumeration) (raw : Int64) (vs : List Int64) : Prop where
  member : ∀ v ∈ vs, v ≠ 0 ∧ ∃ m ∈ e.members, m.2 = v
  within : ∀ v ∈ vs, raw &&& v = v
  disjoint : vs.Pairwise fun v w => v &&& w = 0
  missing : ∀ m ∈ e.members, m.2 ≠ 0 → raw &&& m.2 = m.2 → m.2 ∉ vs →
    ∃ w ∈ vs, m.2 < w ∧ w &&& m.2 ≠ 0

def taken (e : Enumeration) (raw : Int64) : List Int64 := (take raw e.descending).1.map (·.2)

theorem isDescent_taken (e : Enumeration) (raw : Int64) : e.IsDescent raw (e.taken raw) where
  member v hv := by
    obtain ⟨m, hm, rfl⟩ := List.mem_map.1 hv
    obtain ⟨hmem, hne⟩ := mem_descending.1 ((take_sublist raw e.descending).subset hm)
    exact ⟨hne, m, hmem, rfl⟩
  within v hv := by
    obtain ⟨m, hm, rfl⟩ := List.mem_map.1 hv
    exact within_of_mem_take hm
  disjoint := List.pairwise_map.2 (take_pairwise raw e.descending)
  missing m hm hne hin hmissing := by
    rcases mem_take_or_overlaps e.descending_pairwise (mem_descending.2 ⟨hm, hne⟩) hin with
      h | ⟨n, hn, hle, hov⟩
    · exact absurd (List.mem_map_of_mem h) hmissing
    · have hn' : n.2 ∈ e.taken raw := List.mem_map_of_mem hn
      refine ⟨n.2, hn', Int64.lt_of_le_of_ne hle ?_, hov⟩
      intro heq
      exact hmissing (heq ▸ hn')

theorem IsDescent.mem_of_mem {vs ws : List Int64} {v : Int64} (hv : e.IsDescent raw vs)
    (hw : e.IsDescent raw ws) (h : v ∈ vs) : v ∈ ws := by
  -- From the greatest value down, two descents take the same ones.
  by_contra hnot
  have hmissing : ∃ w ∈ ws, v < w ∧ w &&& v ≠ 0 := by
    obtain ⟨hne, m, hm, rfl⟩ := hv.member v h
    exact hw.missing m hm hne (hv.within _ h) hnot
  obtain ⟨w, hmem, hlt, hov⟩ := hmissing
  have hback : w ∈ vs := IsDescent.mem_of_mem hw hv hmem
  refine hov (hv.disjoint.forall hback h ?_)
  rintro rfl
  exact Int64.lt_irrefl hlt
termination_by (2 ^ 63 - v.toInt).toNat
decreasing_by
  have hupper := w.toInt_lt
  have hup := Int64.lt_iff_toInt_lt.1 hlt
  omega

theorem IsDescent.union_eq (hv : e.IsDescent raw vs) (hw : e.IsDescent raw ws) :
    union vs = union ws :=
  union_eq_of_mem_iff fun _ => ⟨hv.mem_of_mem hw, hw.mem_of_mem hv⟩

theorem IsDescent.union_eq_of_members (hv : e.IsDescent raw vs) (hms : ∀ m ∈ ms, m ∈ e.members)
    (hunion : union (ms.map (·.2)) = raw)
    (hcover : ∀ m ∈ ms, ∀ n ∈ e.members, raw &&& n.2 = n.2 → m.2 < n.2 → n.2 &&& m.2 ≠ 0 →
      n.2 &&& m.2 = m.2) : union vs = raw := by
  apply bit_ext
  intro i
  rw [Bool.eq_iff_iff]
  constructor
  · intro hi
    obtain ⟨v, hmem, hvi⟩ := bit_union_iff.1 hi
    exact within_iff.1 (hv.within v hmem) i hvi
  · intro hi
    rw [← hunion] at hi
    obtain ⟨v, hmem, hvi⟩ := bit_union_iff.1 hi
    obtain ⟨m, hm, rfl⟩ := List.mem_map.1 hmem
    have hin : raw &&& m.2 = m.2 := by
      rw [within_iff, ← hunion]
      exact fun j hj => bit_union_iff.2 ⟨m.2, hmem, hj⟩
    have hne : m.2 ≠ 0 := by
      intro hzero
      rw [hzero, bit_zero] at hvi
      cases hvi
    by_cases htaken : m.2 ∈ vs
    · exact bit_union_iff.2 ⟨m.2, htaken, hvi⟩
    · obtain ⟨w, hw, hlt, hov⟩ := hv.missing m (hms m hm) hne hin htaken
      obtain ⟨-, n, hn, rfl⟩ := hv.member w hw
      have hall := hcover m hm n hn (hv.within _ hw) hlt hov
      exact bit_union_iff.2 ⟨n.2, hw, within_iff.1 hall i hvi⟩

theorem combination?_eq_some_iff : e.combination? raw = some ms ↔
    e.isFlags = true ∧ raw ≠ 0 ∧ union (e.taken raw) = raw ∧
      ms = (take raw e.descending).1.reverse := by
  have hrest : (take raw e.descending).2 = 0 ↔ union (e.taken raw) = raw := rest_eq_zero_iff
  rw [combination?]
  by_cases hflags : e.isFlags = true ∧ raw ≠ 0
  · have hne : union (e.taken raw) = raw → (take raw e.descending).1 ≠ [] := by
      intro hunion hnil
      rw [taken, hnil] at hunion
      exact hflags.2 hunion.symm
    rw [if_pos hflags]
    change (if (take raw e.descending).2 = 0 ∧ (take raw e.descending).1 ≠ [] then
      some (take raw e.descending).1.reverse else none) = some ms ↔ _
    by_cases hunion : union (e.taken raw) = raw
    · rw [if_pos ⟨hrest.2 hunion, hne hunion⟩]
      simp [hflags, hunion, eq_comm]
    · rw [if_neg fun h => hunion (hrest.1 h.1)]
      simp [hunion]
  · rw [if_neg hflags]
    refine ⟨nofun, fun h => absurd ⟨h.1, h.2.1⟩ hflags⟩

theorem members_of_combination? (h : e.combination? raw = some ms) :
    (∀ m ∈ ms, m ∈ e.members) ∧ union (ms.map (·.2)) = raw ∧ ms ≠ [] := by
  obtain ⟨-, hraw, hunion, rfl⟩ := combination?_eq_some_iff.1 h
  have hback : union ((take raw e.descending).1.reverse.map (·.2)) = raw := by
    rw [List.map_reverse, union_eq_of_mem_iff fun _ => List.mem_reverse]
    exact hunion
  refine ⟨fun m hm => ?_, hback, fun hnil => ?_⟩
  · exact (mem_descending.1 ((take_sublist raw e.descending).subset (List.mem_reverse.1 hm))).1
  · rw [hnil] at hback
    exact hraw hback.symm

theorem symbolOf?_eq_none_iff : e.symbolOf? raw = none ↔ ∀ m ∈ e.members, m.2 ≠ raw := by
  simp [symbolOf?]

theorem format_cases (e : Enumeration) (raw : Int64) :
    (∃ m ∈ e.members, m.2 = raw ∧ e.format raw = m.1) ∨
      e.symbolOf? raw = none ∧ (∃ ms, e.combination? raw = some ms ∧
        e.format raw = ", ".intercalate (ms.map (·.1))) ∨
      e.symbolOf? raw = none ∧ e.combination? raw = none ∧
        e.format raw = String.ofList (Digits.ofInt raw.toInt) := by
  rw [format]
  cases hs : e.symbolOf? raw with
  | some symbol =>
    left
    rw [symbolOf?, Option.map_eq_some_iff] at hs
    obtain ⟨m, hm, rfl⟩ := hs
    exact ⟨m, List.mem_of_find?_eq_some hm, by simpa using List.find?_some hm, rfl⟩
  | none =>
    right
    cases hc : e.combination? raw with
    | some ms => exact Or.inl ⟨rfl, ms, rfl, rfl⟩
    | none => exact Or.inr ⟨rfl, rfl, rfl⟩

/-- The text lists symbols of members that have the bits of the value together. -/
def Spells (e : Enumeration) (text : String) (raw : Int64) : Prop :=
  ∃ ms, (∀ m ∈ ms, m ∈ e.members) ∧ union (ms.map (·.2)) = raw ∧ ms ≠ [] ∧
    text = ", ".intercalate (ms.map (·.1))

theorem comma_not_mem_ofInt (i : Int) : ',' ∉ Digits.ofInt i := by
  intro h
  rw [Digits.ofInt] at h
  split at h
  · rcases List.mem_cons.1 h with h | h
    · cases h
    · exact absurd (Digits.isDigit_of_mem_ofNat h) (by decide)
  · exact absurd (Digits.isDigit_of_mem_ofNat h) (by decide)

theorem not_spells_digits (h : ∀ m ∈ e.members, m.2 ≠ raw) (i : Int) :
    ¬ e.Spells (String.ofList (Digits.ofInt i)) raw := by
  rintro ⟨ms, hms, hunion, hne, htext⟩
  cases ms with
  | nil => exact hne rfl
  | cons m ms =>
    cases ms with
    | nil =>
      have hm : m.2 = raw := by simpa [union] using hunion
      exact h m (hms m List.mem_cons_self) hm
    | cons n ms =>
      -- a comma would stand between the first two symbols
      have hlist := congrArg String.toList htext
      rw [String.toList_ofList, List.map_cons, List.map_cons, String.intercalate_cons_cons] at hlist
      refine comma_not_mem_ofInt i ?_
      rw [hlist]
      simp

theorem spells_format_of_member (h : ∃ m ∈ e.members, m.2 = raw) : e.Spells (e.format raw) raw := by
  rcases e.format_cases raw with ⟨m, hm, rfl, hformat⟩ | ⟨hnone, -⟩ | ⟨hnone, -⟩
  · refine ⟨[m], by simpa using hm, by simp [union], List.cons_ne_nil m [], ?_⟩
    rw [hformat]
    rfl
  all_goals
    obtain ⟨m, hm, rfl⟩ := h
    exact absurd rfl (symbolOf?_eq_none_iff.1 hnone m hm)

theorem spells_format_of_union (hflags : e.isFlags = true) (hraw : raw ≠ 0)
    (hunion : union (e.taken raw) = raw) : e.Spells (e.format raw) raw := by
  rcases e.format_cases raw with ⟨m, hm, hmraw, -⟩ | ⟨-, ms, hms, hformat⟩ | ⟨-, hnone, -⟩
  · exact spells_format_of_member ⟨m, hm, hmraw⟩
  · obtain ⟨hmem, hbits, hne⟩ := members_of_combination? hms
    exact ⟨ms, hmem, hbits, hne, hformat⟩
  · have hsome := combination?_eq_some_iff.2 ⟨hflags, hraw, hunion, rfl⟩
    rw [hnone] at hsome
    cases hsome

/-- A nonzero value of a flags enumeration is written with symbols exactly when it is a member or a descent
has all of its bits, and with its digits otherwise. Members that have its bits together suffice if each
greater member within the value that overlaps one of them has all of that one's bits. -/
theorem spells_format_iff (hflags : e.isFlags = true) (hraw : raw ≠ 0) :
    (e.Spells (e.format raw) raw ↔
        (∃ m ∈ e.members, m.2 = raw) ∨ ∃ vs, e.IsDescent raw vs ∧ union vs = raw) ∧
      (¬ e.Spells (e.format raw) raw → e.format raw = String.ofList (Digits.ofInt raw.toInt)) ∧
      ∀ ms : List (String × Int64), (∀ m ∈ ms, m ∈ e.members) → union (ms.map (·.2)) = raw →
        (∀ m ∈ ms, ∀ n ∈ e.members, raw &&& n.2 = n.2 → m.2 < n.2 → n.2 &&& m.2 ≠ 0 →
          n.2 &&& m.2 = m.2) →
        e.Spells (e.format raw) raw := by
  have htaken := e.isDescent_taken raw
  refine ⟨⟨fun h => ?_, fun h => ?_⟩, fun h => ?_, fun ms hms hunion hcover => ?_⟩
  · rcases e.format_cases raw with ⟨m, hm, hmraw, -⟩ | ⟨-, ms, hms, -⟩ | ⟨hnone, -, hformat⟩
    · exact Or.inl ⟨m, hm, hmraw⟩
    · exact Or.inr ⟨e.taken raw, htaken, (combination?_eq_some_iff.1 hms).2.2.1⟩
    · rw [hformat] at h
      exact absurd h (not_spells_digits (symbolOf?_eq_none_iff.1 hnone) raw.toInt)
  · rcases h with hm | ⟨vs, hvs, hunion⟩
    · exact spells_format_of_member hm
    · exact spells_format_of_union hflags hraw ((htaken.union_eq hvs).trans hunion)
  · rcases e.format_cases raw with ⟨m, hm, hmraw, -⟩ | ⟨-, ms, hms, -⟩ | ⟨-, -, hformat⟩
    · exact absurd (spells_format_of_member ⟨m, hm, hmraw⟩) h
    · exact absurd (spells_format_of_union hflags hraw (combination?_eq_some_iff.1 hms).2.2.1) h
    · exact hformat
  · exact spells_format_of_union hflags hraw (htaken.union_eq_of_members hms hunion hcover)

def rights : Enumeration :=
  ⟨"Rights", .int32, [("Read", 1), ("Write", 2), ("ReadWrite", 3), ("Delete", 4)], true⟩

theorem spells_format_iff_rights : rights.isFlags = true ∧ (7 : Int64) ≠ 0 ∧
    rights.format 7 = "ReadWrite, Delete" ∧ rights.Spells (rights.format 7) 7 := by
  have hflags : rights.isFlags = true := rfl
  have hraw : (7 : Int64) ≠ 0 := by decide
  have hdescending : rights.descending =
      [("Delete", 4), ("ReadWrite", 3), ("Write", 2), ("Read", 1)] :=
    descending_eq (by decide +kernel) (by decide)
  have hformat : rights.format 7 = "ReadWrite, Delete" := by
    rw [format, combination?, hdescending]
    decide +kernel
  refine ⟨hflags, hraw, hformat, (spells_format_iff hflags hraw).2.2
    [("Read", 1), ("Write", 2), ("Delete", 4)] ?_ rfl ?_⟩
  · decide
  · decide

def pairedRights : Enumeration :=
  ⟨"Rights", .int32, [("ReadWrite", 3), ("Delete", 4), ("WriteDelete", 6)], true⟩

/-- Two members that do not overlap make up the value, but the descent takes a third one first. -/
theorem union_of_members_without_symbols :
    pairedRights.isFlags = true ∧ (7 : Int64) ≠ 0 ∧
      (∀ m ∈ [("ReadWrite", 3), ("Delete", 4)], m ∈ pairedRights.members) ∧
      union ([("ReadWrite", (3 : Int64)), ("Delete", 4)].map (·.2)) = 7 ∧
      pairedRights.format 7 = "7" ∧ ¬ pairedRights.Spells (pairedRights.format 7) 7 := by
  have hdescending : pairedRights.descending =
      [("WriteDelete", 6), ("Delete", 4), ("ReadWrite", 3)] :=
    descending_eq (by decide +kernel) (by decide)
  have hformat : pairedRights.format 7 = String.ofList (Digits.ofInt 7) := by
    rw [format, combination?, hdescending]
    decide +kernel
  refine ⟨rfl, by decide, by decide, rfl, hformat.trans (by decide +kernel), ?_⟩
  rw [hformat]
  exact not_spells_digits (by decide) 7

end RemoteQuery.Enumeration
