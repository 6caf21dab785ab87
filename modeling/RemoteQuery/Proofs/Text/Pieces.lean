import RemoteQuery.Proofs.Text.Numerals
import RemoteQuery.Template

/-!
# Templates put together from pieces

A template is put together from literal texts, with each brace doubled, and from placeholders. Cutting it into
segments gives back the pieces in their order, also where a brace of a text stands beside a placeholder: the
braces before a placeholder's own are a run of pairs, and what is between its braces are digits. So filling it
puts the texts and the arguments together, and fails at the first placeholder without an argument.
-/

namespace RemoteQuery

theorem Digits.index?_ofNat {n : Nat} (h : n < indexLimit) : index? (ofNat n) = some n := by
  have hsign : ∀ rest, ofNat n ≠ '+' :: rest := by
    intro rest he
    exact absurd (isDigit_of_mem_ofNat (he ▸ List.mem_cons_self)) (by decide)
  unfold index?
  split
  · exact absurd ‹_› (hsign _)
  · dsimp only
    rw [toNat?_ofNat, Option.filter_some, if_pos (decide_eq_true h)]

namespace Template

inductive Piece where
  | literal (text : String)
  | argument (index : UInt64)
deriving DecidableEq

namespace Piece

def spellChar (c : Char) : List Char := if c = '\x7b' ∨ c = '\x7d' then [c, c] else [c]

def spelled : Piece → List Char
  | .literal text => text.toList.flatMap spellChar
  | .argument index => '\x7b' :: (Digits.ofNat index.toNat ++ ['\x7d'])

def index? : Piece → Option Nat
  | .literal _ => none
  | .argument index => some index.toNat

def filled (args : List String) : Piece → String
  | .literal text => text
  | .argument index => args.getD index.toNat ""

def segments : Piece → List Segment
  | .literal text => text.toList.map .text
  | .argument index => [.argument index.toNat]

end Piece

def ofPieces (pieces : List Piece) : String := String.ofList (pieces.flatMap Piece.spelled)

section Cutting

variable {rest : List Char}

theorem placeholder?_ofNat {n : Nat} (h : n < Digits.indexLimit) (rest : List Char) :
    placeholder? (Digits.ofNat n ++ '\x7d' :: rest) = some (n, rest) := by
  have hdigits : ∀ c ∈ Digits.ofNat n, (c != '\x7d') = true := by
    intro c hc
    simpa using ne_of_class (Digits.isDigit_of_mem_ofNat hc) rfl
  have hstops : Stops (· != '\x7d') ('\x7d' :: rest) := stops_cons (by simp) rest
  rw [placeholder?, dropWhile_append_of_stops hdigits hstops, takeWhile_append_of_stops hdigits hstops]
  dsimp only
  rw [Digits.index?_ofNat h]
  rfl

theorem exists_segmentsFrom_spellChar (position : Nat) (c : Char) (rest : List Char) :
    ∃ next, segmentsFrom position (Piece.spellChar c ++ rest) = .text c :: segmentsFrom next rest := by
  rw [Piece.spellChar]
  split
  · rename_i h
    rcases h with rfl | rfl
    · exact ⟨_, by rw [List.cons_append, List.cons_append, List.nil_append, segmentsFrom]⟩
    · exact ⟨_, by rw [List.cons_append, List.cons_append, List.nil_append, segmentsFrom]⟩
  · rename_i h
    rw [not_or] at h
    refine ⟨position + c.utf8Size, ?_⟩
    rw [List.cons_append, List.nil_append, segmentsFrom]
    · exact fun _ he _ => h.1 he
    · exact fun _ he _ => h.2 he
    · exact h.1

theorem exists_segmentsFrom_placeholder {cs : List Char} {index : Nat}
    (h : placeholder? cs = some (index, rest)) (hc : ∀ tail, cs ≠ '\x7b' :: tail) (position : Nat) :
    ∃ next, segmentsFrom position ('\x7b' :: cs) = .argument index :: segmentsFrom next rest := by
  refine ⟨position + utf8Length ('\x7b' :: cs) - utf8Length rest, ?_⟩
  rw [segmentsFrom]
  · split
    · rename_i found tail heq
      cases h.symm.trans heq
      rfl
    · rename_i heq
      cases h.symm.trans heq
  · exact fun tail he => hc tail he

theorem exists_segmentsFrom_spelled (piece : Piece) (position : Nat) (rest : List Char) :
    ∃ next, segmentsFrom position (piece.spelled ++ rest) = piece.segments ++ segmentsFrom next rest := by
  cases piece with
  | literal text =>
    rw [Piece.spelled, Piece.segments]
    induction text.toList generalizing position with
    | nil => exact ⟨position, rfl⟩
    | cons c cs ih =>
      obtain ⟨next, hc⟩ := exists_segmentsFrom_spellChar position c (cs.flatMap Piece.spellChar ++ rest)
      obtain ⟨last, hcs⟩ := ih next
      exact ⟨last, by rw [List.flatMap_cons, List.append_assoc, hc, hcs, List.map_cons, List.cons_append]⟩
  | argument index =>
    -- The character after the brace is a digit, and not a second brace.
    have hdigit : ∀ tail, Digits.ofNat index.toNat ++ '\x7d' :: rest ≠ '\x7b' :: tail := by
      intro tail he
      obtain ⟨c, cs, hcs⟩ := List.exists_cons_of_ne_nil (Digits.ofNat_ne_nil index.toNat)
      rw [hcs, List.cons_append] at he
      exact ne_of_class (Digits.isDigit_of_mem_ofNat (hcs ▸ List.mem_cons_self)) rfl (List.cons.inj he).1
    rw [Piece.spelled, List.cons_append, List.append_assoc, List.cons_append, List.nil_append]
    exact exists_segmentsFrom_placeholder (placeholder?_ofNat index.toNat_lt rest) hdigit position

theorem segments_ofPieces (pieces : List Piece) :
    segments (ofPieces pieces) = pieces.flatMap Piece.segments := by
  have hfrom : ∀ position, segmentsFrom position (pieces.flatMap Piece.spelled) =
      pieces.flatMap Piece.segments := by
    induction pieces with
    | nil =>
      intro position
      rw [List.flatMap_nil, segmentsFrom]
      rfl
    | cons piece pieces ih =>
      intro position
      obtain ⟨next, h⟩ := exists_segmentsFrom_spelled piece position (pieces.flatMap Piece.spelled)
      rw [List.flatMap_cons, List.flatMap_cons, h, ih next]
  rw [segments, ofPieces, String.toList_ofList]
  exact hfrom 0

end Cutting

/-- The first placeholder for which so many arguments are too few. -/
def firstMissing? (pieces : List Piece) (count : Nat) : Option Nat :=
  (pieces.filterMap Piece.index?).find? (count ≤ ·)

variable {template : String} {args : List String}

theorem fillSegments_text_append (cs : List Char) (segs : List Segment) :
    fillSegments template args (cs.map .text ++ segs) = (fillSegments template args segs).map (cs ++ ·) := by
  induction cs with
  | nil =>
    rw [List.map_nil, List.nil_append]
    cases fillSegments template args segs <;> rfl
  | cons c cs ih =>
    rw [List.map_cons, List.cons_append, fillSegments, ih]
    cases fillSegments template args segs <;> rfl

theorem fillSegments_pieces (pieces : List Piece) :
    fillSegments template args (pieces.flatMap Piece.segments) =
      match firstMissing? pieces args.length with
      | none => .ok (pieces.flatMap fun piece => (piece.filled args).toList)
      | some index => .error (.missingArgument template index args.length) := by
  induction pieces with
  | nil => rfl
  | cons piece pieces ih =>
    rw [List.flatMap_cons, List.flatMap_cons]
    cases piece with
    | literal text =>
      have hfirst : firstMissing? (.literal text :: pieces) args.length = firstMissing? pieces args.length := rfl
      rw [Piece.segments, fillSegments_text_append, ih, hfirst]
      cases firstMissing? pieces args.length <;> rfl
    | argument index =>
      have hfirst : firstMissing? (.argument index :: pieces) args.length =
          if args.length ≤ index.toNat then some index.toNat else firstMissing? pieces args.length := by
        rw [firstMissing?, List.filterMap_cons, Piece.index?, List.find?_cons]
        by_cases h : args.length ≤ index.toNat
        · rw [decide_eq_true h, if_pos h]
        · rw [decide_eq_false h, if_neg h]
          rfl
      rw [Piece.segments, List.cons_append, List.nil_append, fillSegments, ih, hfirst]
      by_cases hi : index.toNat < args.length
      · have harg : (Piece.argument index).filled args = args[index.toNat] := by simp [Piece.filled, hi]
        rw [List.getElem?_eq_getElem hi, if_neg (Nat.not_le.2 hi), harg]
        cases firstMissing? pieces args.length <;> rfl
      · rw [List.getElem?_eq_none (Nat.not_lt.1 hi), if_pos (Nat.not_lt.1 hi)]

/-- A template put together from pieces is filled with the texts and the arguments as they are, if all
placeholders have an argument. Otherwise it fails at the first that has none. -/
theorem fill_ofPieces (pieces : List Piece) (args : List String) :
    fill (ofPieces pieces) args =
      match firstMissing? pieces args.length with
      | none => .ok (String.join (pieces.map (Piece.filled args)))
      | some index => .error (.missingArgument (ofPieces pieces) index args.length) := by
  rw [fill, segments_ofPieces, fillSegments_pieces]
  cases firstMissing? pieces args.length with
  | none =>
    refine congrArg Except.ok (String.toList_inj.1 ?_)
    rw [String.toList_ofList, String.toList_join, List.flatMap_map]
  | some index => rfl

example : fill (ofPieces [.literal "\x7b", .argument 0, .literal "\x7d\x7d", .argument 1])
    ["\x7b1\x7d", "b"] = .ok "\x7b\x7b1\x7d\x7d\x7db" := by cbv

end Template
end RemoteQuery
