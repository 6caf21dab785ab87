import RemoteQuery.Proofs.Text.Numerals
import RemoteQuery.Proofs.Ty.Descent
import RemoteQuery.Proofs.Wire.Reader

/-!
# Symbols read back

A text with digits is read as a number, any other one is cut at its commas and the values of the symbols
are put together. If the symbols of an enumeration differ, have no comma and are no numbers, this gives
back the value that was written. The values of a combination ascend, and no two of them overlap.
-/

namespace RemoteQuery.Enumeration

open Flags

variable {e : Enumeration} {raw : Int64} {ms : List (String × Int64)} {cs : List Char}
  {css : List (List Char)} {text : String}

def pieces : List Char → List (List Char)
  | [] => [[]]
  | ',' :: ' ' :: cs => [] :: pieces cs
  | c :: cs => (pieces cs).modifyHead (c :: ·)

theorem pieces_append (h : ',' ∉ cs) (rest : List Char) :
    pieces (cs ++ rest) = (pieces rest).modifyHead (cs ++ ·) := by
  induction cs with
  | nil => exact (congrFun List.modifyHead_id (pieces rest)).symm
  | cons c cs ih =>
    rw [List.mem_cons, not_or] at h
    rw [List.cons_append, pieces, ih h.2, List.modifyHead_modifyHead]
    · rfl
    · rintro _ rfl
      exact absurd rfl h.1

theorem pieces_intercalate (hcss : css ≠ []) (h : ∀ cs ∈ css, ',' ∉ cs) :
    pieces ([',', ' '].intercalate css) = css := by
  induction css with
  | nil => exact absurd rfl hcss
  | cons cs css ih =>
    obtain ⟨hcs, hrest⟩ := List.forall_mem_cons.1 h
    cases css with
    | nil =>
      have hone := pieces_append hcs []
      simpa [pieces] using hone
    | cons ds css =>
      rw [List.intercalate_cons_cons, List.append_assoc, pieces_append hcs]
      have hcut : pieces ([',', ' '] ++ [',', ' '].intercalate (ds :: css)) =
          [] :: pieces ([',', ' '].intercalate (ds :: css)) := rfl
      rw [hcut, ih (List.cons_ne_nil ds css) hrest, List.modifyHead_cons, List.append_nil]

def listed? (e : Enumeration) (text : String) : Option (List Int64) :=
  (pieces text.toList).mapM fun cs => e.valueOf? (String.ofList cs)

def decode? (e : Enumeration) (text : String) : Option Int64 :=
  match Reader.int? text.toList with
  | some raw => some raw
  | none => (e.listed? text).map union

/-- The symbols differ from each other and from numbers, and none has the mark between two of them. -/
structure Legible (e : Enumeration) : Prop where
  distinct : (e.members.map (·.1)).Nodup
  unlisted : ∀ m ∈ e.members, ',' ∉ m.1.toList
  unnumbered : ∀ m ∈ e.members, Reader.int? m.1.toList = none

theorem Legible.valueOf?_of_mem (h : e.Legible) {m : String × Int64} (hm : m ∈ e.members) :
    e.valueOf? m.1 = some m.2 := by
  have hfound : (e.members.find? (·.1 == m.1)).isSome = true :=
    List.find?_isSome.2 ⟨m, hm, beq_self_eq_true m.1⟩
  obtain ⟨n, hn⟩ := Option.isSome_iff_exists.1 hfound
  have hname : n.1 = m.1 := by simpa using List.find?_some hn
  have heq : n = m := List.inj_on_of_nodup_map h.distinct (List.mem_of_find?_eq_some hn) hm hname
  rw [valueOf?, hn, heq]
  rfl

theorem Legible.listed?_symbols (h : e.Legible) (hms : ∀ m ∈ ms, m ∈ e.members) (hne : ms ≠ []) :
    e.listed? (", ".intercalate (ms.map (·.1))) = some (ms.map (·.2)) := by
  have hpieces : pieces (", ".intercalate (ms.map (·.1))).toList = ms.map (·.1.toList) := by
    rw [String.toList_intercalate, List.map_map]
    refine pieces_intercalate (by simpa using hne) fun cs hcs => ?_
    obtain ⟨m, hm, rfl⟩ := List.mem_map.1 hcs
    exact h.unlisted m (hms m hm)
  rw [listed?, hpieces, List.mapM_map]
  refine mapM_eq_some_map fun m hm => ?_
  rw [Function.comp_apply, String.ofList_toList]
  exact h.valueOf?_of_mem (hms m hm)

theorem int?_eq_none_of_comma (h : ',' ∈ cs) : Reader.int? cs = none := by
  have hnat : ∀ {ds : List Char}, ',' ∈ ds → Digits.toNat? ds = none := by
    intro ds hds
    rw [Digits.toNat?, if_neg]
    rintro ⟨-, hall⟩
    exact absurd (List.all_eq_true.1 hall _ hds) (by decide)
  rw [Reader.int?.eq_def]
  split
  · rw [hnat (by simpa using h)]
    rfl
  · rw [hnat h]
    rfl

theorem Legible.decode?_of_spells (h : e.Legible) (hs : e.Spells text raw) :
    e.decode? text = some raw := by
  obtain ⟨ms, hms, rfl, hne, rfl⟩ := hs
  have hint : Reader.int? (", ".intercalate (ms.map (·.1))).toList = none := by
    cases ms with
    | nil => exact absurd rfl hne
    | cons m ms =>
      cases ms with
      | nil => simpa using h.unnumbered m (hms m List.mem_cons_self)
      | cons n ms =>
        apply int?_eq_none_of_comma
        rw [List.map_cons, List.map_cons, String.intercalate_cons_cons]
        simp
  rw [decode?, hint, h.listed?_symbols hms hne]
  rfl

theorem Legible.listed?_digits (h : e.Legible) (raw : Int64) :
    e.listed? (String.ofList (Digits.ofInt raw.toInt)) = none := by
  have hpieces : pieces (Digits.ofInt raw.toInt) = [Digits.ofInt raw.toInt] := by
    have hone := pieces_append (comma_not_mem_ofInt raw.toInt) []
    simpa [pieces] using hone
  have hvalue : e.valueOf? (String.ofList (Digits.ofInt raw.toInt)) = none := by
    rw [valueOf?, Option.map_eq_none_iff, List.find?_eq_none]
    intro m hm heq
    have hnumber := h.unnumbered m hm
    rw [eq_of_beq heq, String.toList_ofList, Reader.int?_ofInt] at hnumber
    cases hnumber
  rw [listed?, String.toList_ofList, hpieces]
  simp [hvalue]

theorem combination?_ascending (h : e.combination? raw = some ms) :
    (ms.map (·.2)).Pairwise (fun v w => v &&& w = 0 ∧ v < w) ∧ 0 ∉ ms.map (·.2) := by
  obtain ⟨-, -, -, rfl⟩ := combination?_eq_some_iff.1 h
  have hsub := take_sublist raw e.descending
  have hne : ∀ m ∈ (take raw e.descending).1, m.2 ≠ 0 :=
    fun m hm => (mem_descending.1 (hsub.subset hm)).2
  have hdescending := e.descending_pairwise.sublist hsub
  have hboth := hdescending.and (take_pairwise raw e.descending)
  constructor
  · rw [List.pairwise_map, List.pairwise_reverse]
    refine hboth.imp_of_mem fun {a b} ha hb hab => ?_
    have hdisjoint : b.2 &&& a.2 = 0 := (Int64.and_comm b.2 a.2).trans hab.2
    refine ⟨hdisjoint, Int64.lt_of_le_of_ne hab.1 fun heq => hne b hb ?_⟩
    rwa [← heq, Int64.and_self] at hdisjoint
  · intro hzero
    obtain ⟨m, hm, hm0⟩ := List.mem_map.1 hzero
    exact hne m (List.mem_reverse.1 hm) hm0

/-- Every value is read back from what is written for it. If it has no symbol of its own, but symbols are
listed, their values are not zero, ascend and do not overlap. -/
theorem decode?_format (h : e.Legible) (raw : Int64) :
    e.decode? (e.format raw) = some raw ∧
      (e.symbolOf? raw = none → ∀ values, e.listed? (e.format raw) = some values →
        values.Pairwise (fun v w => v &&& w = 0 ∧ v < w) ∧ 0 ∉ values) := by
  rcases e.format_cases raw with ⟨m, hm, hmraw, -⟩ | ⟨-, ms, hms, hformat⟩ | ⟨-, -, hformat⟩
  · refine ⟨h.decode?_of_spells (spells_format_of_member ⟨m, hm, hmraw⟩), fun hnone => ?_⟩
    exact absurd hmraw (symbolOf?_eq_none_iff.1 hnone m hm)
  · obtain ⟨hmem, hunion, hne⟩ := members_of_combination? hms
    refine ⟨h.decode?_of_spells ⟨ms, hmem, hunion, hne, hformat⟩, fun _ values hvalues => ?_⟩
    rw [hformat, h.listed?_symbols hmem hne] at hvalues
    obtain rfl := Option.some.inj hvalues
    exact combination?_ascending hms
  · rw [hformat]
    refine ⟨?_, fun _ values hvalues => ?_⟩
    · rw [decode?, String.toList_ofList, Reader.int?_ofInt]
    · rw [h.listed?_digits] at hvalues
      cases hvalues

def signedRights : Enumeration :=
  ⟨"Rights", .int32, [("None", 0), ("Write", 2), ("Read", 1), ("Owner", -8)], true⟩

theorem decode?_format_signedRights : signedRights.Legible ∧
    signedRights.symbolOf? (-5) = none ∧ signedRights.listed? (signedRights.format (-5)) = some [-8, 1, 2] ∧
    signedRights.decode? (signedRights.format (-5)) = some (-5) ∧
    [(-8 : Int64), 1, 2].Pairwise (fun v w => v &&& w = 0 ∧ v < w) ∧ 0 ∉ [(-8 : Int64), 1, 2] := by
  have hlegible : signedRights.Legible := ⟨by decide, by decide, by decide⟩
  have hnone : signedRights.symbolOf? (-5) = none := by decide
  have hdescending : signedRights.descending = [("Write", 2), ("Read", 1), ("Owner", -8)] :=
    descending_eq (by decide +kernel) (by decide)
  have hlisted : signedRights.listed? (signedRights.format (-5)) = some [-8, 1, 2] := by
    rw [format, combination?, hdescending]
    decide +kernel
  obtain ⟨hdecode, hvalues⟩ := decode?_format hlegible (-5)
  exact ⟨hlegible, hnone, hlisted, hdecode, hvalues hnone _ hlisted⟩

end RemoteQuery.Enumeration
