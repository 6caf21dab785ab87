import RemoteQuery.Mapping.Basic
import RemoteQuery.Fault

/-!
# When a template can be filled

A template is filled from left to right, so the first segment at fault decides: one that is not closed, or
a placeholder past the last argument. What the arguments are does not matter, only how many there are.
-/

namespace RemoteQuery

namespace Template

def segmentFault? (template : String) (count : Nat) : Segment → Option Fault
  | .text _ => none
  | .argument index =>
    if index < count then none else some (.missingArgument template index count)
  | .broken position => some (.unterminated template position)

def fault? (template : String) (count : Nat) : Option Fault :=
  (segments template).findSome? (segmentFault? template count)

theorem fillSegments_eq_error_iff {template : String} {args : List String} {segs : List Segment}
    {why : Fault} : fillSegments template args segs = .error why ↔
      segs.findSome? (segmentFault? template args.length) = some why := by
  have hmap : ∀ {rest : List Segment} {f : List Char → List Char},
      (fillSegments template args rest).map f = .error why ↔
        fillSegments template args rest = .error why := by
    intro rest f
    cases fillSegments template args rest <;> simp [Except.map]
  induction segs with
  | nil => simp [fillSegments]
  | cons seg rest ih =>
    rw [List.findSome?_cons]
    cases seg with
    | text c =>
      rw [fillSegments]
      exact hmap.trans ih
    | argument index =>
      rw [fillSegments, segmentFault?]
      by_cases hi : index < args.length
      · rw [List.getElem?_eq_getElem hi, if_pos hi]
        exact hmap.trans ih
      · rw [List.getElem?_eq_none (by omega), if_neg hi]
        simp
    | broken position => simp [fillSegments, segmentFault?]

theorem fill_eq_error_iff {template : String} {args : List String} {why : Fault} :
    fill template args = .error why ↔ fault? template args.length = some why := by
  rw [fault?, ← fillSegments_eq_error_iff, fill]
  cases fillSegments template args (segments template) <;> simp [Except.map]

end Template

namespace Mapping

def fault? (m : Mapping) (count : Nat) : Option Fault :=
  (Template.fault? m.template count).map .template

theorem fill_eq_error_iff {m : Mapping} {args : List String} {why : Fault} :
    (m.fill args).mapError Fault.template = .error why ↔ m.fault? args.length = some why := by
  rw [fault?, Option.map_eq_some_iff]
  simp only [← Template.fill_eq_error_iff, ← fill.eq_1]
  cases m.fill args with
  | ok text =>
    show Except.ok text = .error why ↔ _
    simp
  | error found =>
    show Except.error (Fault.template found) = .error why ↔ _
    simp

end Mapping
end RemoteQuery
