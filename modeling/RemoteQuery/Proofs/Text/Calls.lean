import Mathlib.Data.List.Basic
import RemoteQuery.Mapping.Basic
import RemoteQuery.Proofs.Text.Pieces

/-!
# Templates of plain calls

The template of a plain call is put together from the pieces of the call: its name, which has no braces,
the signs around the arguments, and a placeholder for each argument in their order. Like an index, the number
of the arguments is below `2 ^ 64`. One rule tells how a call is written, be it with what the pieces spell or
with what they are filled with. So the filled template is the same call with the arguments themselves, and
what is missing first is the argument after the last one.
-/

namespace RemoteQuery

def IsBraceFree (text : String) : Prop := '\x7b' ∉ text.toList ∧ '\x7d' ∉ text.toList

instance (text : String) : Decidable (IsBraceFree text) := inferInstanceAs (Decidable (_ ∧ _))

theorem IsBraceFree.append {a b : String} (ha : IsBraceFree a) (hb : IsBraceFree b) :
    IsBraceFree (a ++ b) := by
  simpa [IsBraceFree, not_or] using ⟨⟨ha.1, hb.1⟩, ha.2, hb.2⟩

def CallStyle.written (style : CallStyle) (name : String) (args : List String) : String :=
  match style, args with
  | .chained, receiver :: rest => receiver ++ "." ++ name ++ "(" ++ ",".intercalate rest ++ ")"
  | _, args => name ++ "(" ++ ",".intercalate args ++ ")"

namespace Template

namespace Piece

def text (piece : Piece) : String := String.ofList piece.spelled

theorem text_literal {text : String} (h : IsBraceFree text) : (Piece.literal text).text = text := by
  have hchar : ∀ c ∈ text.toList, spellChar c = [c] := by
    intro c hc
    refine if_neg ?_
    rintro (rfl | rfl)
    · exact h.1 hc
    · exact h.2 hc
  rw [Piece.text, spelled, List.flatMap_congr hchar, List.flatMap_singleton', String.ofList_toList]

end Piece

def bracketed (opening : String) (args : List Piece) : List Piece :=
  .literal opening :: (args.intersperse (.literal ",") ++ [.literal ")"])

def callPieces (style : CallStyle) (name : String) (args : List Piece) : List Piece :=
  match style, args with
  | .chained, receiver :: rest => receiver :: bracketed ("." ++ name ++ "(") rest
  | _, args => bracketed (name ++ "(") args

section Writing

variable {write : Piece → String} {name opening : String}

theorem join_map_intersperse (hcomma : write (.literal ",") = ",") (args : List Piece) :
    String.join ((args.intersperse (.literal ",")).map write) = ",".intercalate (args.map write) := by
  induction args with
  | nil => rfl
  | cons a args ih =>
    cases args with
    | nil => simp
    | cons b args =>
      rw [List.intersperse_cons_cons, List.map_cons, List.map_cons, String.join_cons, String.join_cons, ih,
        hcomma]
      simp only [List.map_cons, String.intercalate_cons_cons, String.append_assoc]

theorem join_map_bracketed (hw : ∀ text, IsBraceFree text → write (.literal text) = text)
    (hopening : IsBraceFree opening) (args : List Piece) :
    String.join ((bracketed opening args).map write) =
      opening ++ ",".intercalate (args.map write) ++ ")" := by
  have hcomma : write (.literal ",") = "," := hw "," (by decide)
  have hclosing : write (.literal ")") = ")" := hw ")" (by decide)
  rw [bracketed, List.map_cons, String.join_cons, List.map_append, String.join_append,
    join_map_intersperse hcomma, hw opening hopening]
  simp [hclosing, String.append_assoc]

theorem join_map_callPieces (hw : ∀ text, IsBraceFree text → write (.literal text) = text)
    (hname : IsBraceFree name) (style : CallStyle) (args : List Piece) :
    String.join ((callPieces style name args).map write) = style.written name (args.map write) := by
  have hplain : IsBraceFree (name ++ "(") := hname.append (by decide)
  cases style with
  | static => exact join_map_bracketed hw hplain args
  | chained =>
    cases args with
    | nil => exact join_map_bracketed hw hplain []
    | cons receiver rest =>
      have hchained : IsBraceFree ("." ++ name ++ "(") :=
        (IsBraceFree.append (by decide) hname).append (by decide)
      rw [callPieces, List.map_cons, String.join_cons, join_map_bracketed hw hchained]
      simp only [List.map_cons, CallStyle.written, String.append_assoc]

theorem join_map_eq (write : Piece → String) (pieces : List Piece) :
    String.join (pieces.map write) = String.ofList (pieces.flatMap fun piece => (write piece).toList) := by
  refine String.toList_inj.1 ?_
  rw [String.toList_join, String.toList_ofList, List.flatMap_map]

end Writing

theorem filterMap_index?_intersperse (args : List Piece) :
    (args.intersperse (.literal ",")).filterMap Piece.index? = args.filterMap Piece.index? := by
  induction args with
  | nil => rfl
  | cons a args ih =>
    cases args with
    | nil => rfl
    | cons b args =>
      have hcomma : (Piece.literal ",").index? = none := rfl
      rw [List.intersperse_cons_cons, List.filterMap_cons, List.filterMap_cons_none hcomma, ih,
        List.filterMap_cons (l := b :: args)]

theorem filterMap_index?_callPieces (style : CallStyle) (name : String) (args : List Piece) :
    (callPieces style name args).filterMap Piece.index? = args.filterMap Piece.index? := by
  have hbracketed : ∀ opening args, (bracketed opening args).filterMap Piece.index? =
      args.filterMap Piece.index? := by
    intro opening args
    have hopening : (Piece.literal opening).index? = none := rfl
    rw [bracketed, List.filterMap_cons_none hopening, List.filterMap_append,
      filterMap_index?_intersperse]
    exact List.append_nil _
  cases style with
  | static => exact hbracketed _ args
  | chained =>
    cases args with
    | nil => exact hbracketed _ []
    | cons receiver rest => rw [callPieces, List.filterMap_cons, hbracketed, List.filterMap_cons]

def placeholders (arity : UInt64) : List Piece :=
  (List.range arity.toNat).map fun i => .argument (.ofNat i)

variable {arity : UInt64} {args : List String}

theorem toNat_ofNat_of_lt {i : Nat} (h : i < arity.toNat) : (UInt64.ofNat i).toNat = i :=
  UInt64.toNat_ofNat_of_lt' (Nat.lt_trans h arity.toNat_lt)

theorem map_text_placeholders (arity : UInt64) :
    (placeholders arity).map Piece.text = (List.range arity.toNat).map Mapping.placeholder := by
  rw [placeholders, List.map_map]
  refine List.map_congr_left fun i hi => ?_
  rw [Function.comp_apply, Piece.text, Piece.spelled, toNat_ofNat_of_lt (List.mem_range.1 hi)]
  refine String.toList_inj.1 ?_
  simp [Mapping.placeholder, Digits.ofNat]

theorem firstMissing?_placeholders (style : CallStyle) (name : String) (arity : UInt64) (count : Nat) :
    firstMissing? (callPieces style name (placeholders arity)) count =
      if count < arity.toNat then some count else none := by
  have hindexes : (placeholders arity).filterMap Piece.index? = List.range arity.toNat := by
    rw [placeholders, List.filterMap_map]
    refine (List.filterMap_congr fun i hi => ?_).trans List.filterMap_some
    exact congrArg some (toNat_ofNat_of_lt (List.mem_range.1 hi))
  rw [firstMissing?, filterMap_index?_callPieces, hindexes]
  split
  · rename_i h
    exact List.find?_range_eq_some.2 ⟨by simp, by simpa using h, by simp⟩
  · rename_i h
    exact List.find?_range_eq_none.2 fun i hi => by simp; omega

theorem map_filled_placeholders (h : arity.toNat ≤ args.length) :
    (placeholders arity).map (Piece.filled args) = args.take arity.toNat := by
  refine List.ext_getElem (by simp [placeholders, h]) fun i hi _ => ?_
  have hi : i < arity.toNat := by simpa [placeholders] using hi
  simp [placeholders, Piece.filled, toNat_ofNat_of_lt hi, Nat.lt_of_lt_of_le hi h]

end Template

namespace Mapping

open Template

variable {name : String}

theorem template_function (signature : Signature) (style : CallStyle) (name : String) (arity : Nat) :
    (function signature style name arity).template =
      style.written name ((List.range arity).map placeholder) := by
  cases style with
  | static => rfl
  | chained =>
    show chainedCall name ((List.range arity).map placeholder) = _
    cases (List.range arity).map placeholder with
    | nil => rfl
    | cons receiver rest => simp only [chainedCall, staticCall, CallStyle.written, String.append_assoc]

theorem template_function_eq_ofPieces (hname : IsBraceFree name) (signature : Signature)
    (style : CallStyle) (arity : UInt64) :
    (function signature style name arity.toNat).template =
      ofPieces (callPieces style name (placeholders arity)) := by
  rw [template_function, ← map_text_placeholders,
    ← join_map_callPieces (fun _ => Piece.text_literal) hname, join_map_eq]
  simp [ofPieces, Piece.text]

theorem fill_function_eq (hname : IsBraceFree name) (signature : Signature) (style : CallStyle)
    (arity : UInt64) (args : List String) :
    (function signature style name arity.toNat).fill args =
      if args.length < arity.toNat then
        .error (.missingArgument (function signature style name arity.toNat).template args.length
          args.length)
      else .ok (style.written name (args.take arity.toNat)) := by
  rw [Mapping.fill, template_function_eq_ofPieces hname, Template.fill, segments_ofPieces,
    fillSegments_pieces, firstMissing?_placeholders]
  by_cases h : args.length < arity.toNat
  · rw [if_pos h, if_pos h]
    rfl
  · rw [if_neg h, if_neg h, ← map_filled_placeholders (Nat.not_lt.1 h),
      ← join_map_callPieces (fun _ _ => rfl) hname, join_map_eq]
    rfl

/-- The template of a plain call uses every argument once and in order. Given as many arguments as it has
places, it is filled to the call with these arguments; given fewer, it fails at the first that is missing. -/
theorem fill_function (hname : IsBraceFree name) (signature : Signature) (style : CallStyle)
    (arity : UInt64) (args : List String) :
    (args.length = arity.toNat →
      (function signature style name arity.toNat).fill args = .ok (style.written name args)) ∧
    (args.length < arity.toNat →
      (function signature style name arity.toNat).fill args =
        .error (.missingArgument (function signature style name arity.toNat).template args.length
          args.length)) := by
  rw [fill_function_eq hname]
  constructor
  · intro hlen
    rw [if_neg (by omega), ← hlen, List.take_length]
  · intro hlen
    rw [if_pos hlen]

def awkwardTexts : List String :=
  ["\x7b1\x7d", "b", "\x7b\x7b", "d)", "(e", "f", "g", "h", "i", "j", "'k,l'"]

theorem fill_function_awkwardTexts :
    IsBraceFree "choose" ∧ awkwardTexts.length = (11 : UInt64).toNat ∧
      (function ⟨"Object", "Choose", none⟩ .chained "choose" (11 : UInt64).toNat).fill awkwardTexts =
        .ok "\x7b1\x7d.choose(b,\x7b\x7b,d),(e,f,g,h,i,j,'k,l')" ∧
      ["a", "b"].length < (3 : UInt64).toNat ∧
      (function ⟨"Object", "Choose", none⟩ .static "choose" (3 : UInt64).toNat).fill ["a", "b"] =
        .error (.missingArgument "choose(\x7b0\x7d,\x7b1\x7d,\x7b2\x7d)" 2 2) := by
  have hname : IsBraceFree "choose" := by decide
  obtain ⟨hfilled, -⟩ := fill_function hname ⟨"Object", "Choose", none⟩ .chained 11 awkwardTexts
  obtain ⟨-, hmissing⟩ := fill_function hname ⟨"Object", "Choose", none⟩ .static 3 ["a", "b"]
  refine ⟨hname, rfl, (hfilled rfl).trans (congrArg Except.ok (by decide)), by decide, ?_⟩
  exact (hmissing (by decide)).trans (by decide)

end Mapping
end RemoteQuery
