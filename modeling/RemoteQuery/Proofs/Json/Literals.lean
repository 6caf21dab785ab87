import RemoteQuery.Json.Terms
import RemoteQuery.Proofs.Calendar
import RemoteQuery.Proofs.Guid
import RemoteQuery.Proofs.Json.Floats
import RemoteQuery.Proofs.Json.Types
import RemoteQuery.Proofs.Number.Decimal

/-!
# Literals survive documents

All literals but floats are read back as they were, apart from the sign of a zero decimal, which is written
but not read. Floats are left out: the reader of a number rounds twice, and one that is not finite has no number.
-/

namespace RemoteQuery

open Json

namespace Zone

theorem ofJson?_toJson (zone : Zone) : ofJson? zone.toJson = some zone := by
  cases zone with
  | unspecified | utc => rfl
  | offset seconds =>
    rw [toJson, ofJson?, if_neg (bareTag?_tagged_ne (by decide) _),
      if_neg (bareTag?_tagged_ne (by decide) _), tagged?_tagged]
    simp [int32?_ofInt]

theorem plain_toJson (zone : Zone) : zone.toJson.Plain := by
  cases zone with
  | unspecified | utc => exact .string _
  | offset seconds => exact plain_tagged (.ofInt _)

end Zone

namespace Literal

def items : Literal → List Literal
  | .sequence items => items
  | _ => []

inductive All (P : Literal → Prop) : Literal → Prop
  | intro {l : Literal} (self : P l) (each : ∀ i ∈ l.items, All P i) : All P l

def isFloat : Literal → Bool
  | .single _ | .double _ => true
  | _ => false

def isSignedZero : Literal → Bool
  | .decimal d => d.negative && d.mantissa == 0
  | _ => false

/-- The literal with no sign at the zeros in it. -/
def settled : Literal → Literal
  | .decimal d => .decimal d.settled
  | .sequence items => .sequence (items.map settled)
  | l => l

theorem settled_eq_self {l : Literal} (h : l.All fun i => i.isSignedZero = false) : l.settled = l := by
  induction h with
  | @intro l self each ih =>
    cases l with
    | decimal d =>
      rw [settled, Decimal.settled_eq_self]
      intro hm
      simpa [isSignedZero, hm] using self
    | sequence items =>
      have hitems : items.map settled = items := (List.map_congr_left ih).trans (List.map_id' items)
      rw [settled, hitems]
    | _ => rw [settled] <;> simp

theorem dateTime_record (t : DateTime) (zone : Zone) :
    (dateTimeToJson t zone).record? [.required "value", .required "kind"] =
      some [.string (String.ofList t.text), zone.toJson] :=
  record?_object rfl (by decide)

theorem decode_toJson {n : Nat} {l : Literal} (hl : l.All fun i => i.isFloat = false)
    (h : l.toJson.depth < n) : decode n l.toJson = some l.settled := by
  induction n generalizing l with
  | zero => cases h
  | succ n ih =>
    obtain ⟨hself, heach⟩ := hl
    cases l with
    | single s | double d => cases hself
    | null => simp [toJson, settled, decode, bareTag?]
    | sequence items =>
      rw [toJson, itemsToJson_eq_map] at h ⊢
      have hitems : (array (items.map toJson)).listOf? (decode n) = some (items.map settled) :=
        listOf?_array fun i hi => ih (heach i hi)
          (Nat.lt_trans (depth_lt_of_mem_array (List.mem_map_of_mem hi)) (depth_lt_of_tagged h))
      rw [decode, if_neg (bareTag?_tagged_ne (by decide) _), tagged?_tagged]
      simp [hitems, settled]
    | dateTime t zone =>
      rw [toJson, decode, if_neg (bareTag?_tagged_ne (by decide) _), tagged?_tagged]
      simp only [Option.bind_eq_bind, Option.bind_some, dateTime_record]
      simp [Json.string?, DateTime.read?_text, Zone.ofJson?_toJson, settled]
    | enum e raw =>
      have hrecord : (Json.object [("def", e.toJson), ("raw", .ofInt raw.toInt)]).record?
          [.required "def", .required "raw"] = some [e.toJson, .ofInt raw.toInt] :=
        record?_object rfl (by decide)
      rw [toJson, decode, if_neg (bareTag?_tagged_ne (by decide) _), tagged?_tagged]
      simp only [Option.bind_eq_bind, Option.bind_some, hrecord]
      simp [Enumeration.ofJson?_toJson, int64?_ofInt, settled]
    -- The bodies of the others are read in one piece.
    | _ =>
      rw [toJson, decode, if_neg (bareTag?_tagged_ne (by decide) _), tagged?_tagged]
      simp [Json.bool?, Json.string?, int64?_ofInt, char?_singleton, Decimal.read?_text, Guid.read?_text,
        Ty.ofJson?_toJson, settled]

theorem ofJson?_toJson {l : Literal} (h : l.All fun i => i.isFloat = false) :
    ofJson? l.toJson = some l.settled :=
  decode_toJson h (Nat.lt_succ_self _)

mutual
theorem plain_toJson : ∀ l : Literal, l.toJson.Plain
  | .null => .string _
  | .bool b => plain_tagged (.bool b)
  | .int i => plain_tagged (.ofInt _)
  | .single s => plain_tagged (plain_ofFloat ..)
  | .double d => plain_tagged (plain_ofFloat ..)
  | .decimal _ | .string _ | .char _ | .guid _ => plain_tagged (.string _)
  | .dateTime t zone => by
    rw [toJson]
    refine plain_tagged (.object ?_)
    simp [Plain.string, zone.plain_toJson]
  | .enum e raw => by
    rw [toJson]
    refine plain_tagged (.object ?_)
    simp [e.plain_toJson, Plain.ofInt]
  | .type t => plain_tagged t.plain_toJson
  | .sequence items => plain_tagged (plain_itemsToJson items)
theorem plain_itemsToJson : ∀ ls : List Literal, (array (itemsToJson ls)).Plain
  | [] => .array nofun
  | l :: ls => by
    cases plain_itemsToJson ls with
    | array each => exact .array (List.forall_mem_cons.2 ⟨plain_toJson l, each⟩)
end

end Literal
end RemoteQuery
