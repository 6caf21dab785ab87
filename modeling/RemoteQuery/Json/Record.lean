import RemoteQuery.Json.Basic
import RemoteQuery.Json.Number

/-!
# Records and tags in documents

A record is an object with one member for each field, or an array of the fields in order. Members of
other names are passed over, and a field must not stand twice. A tagged value is an object with one
member; a tag without a payload may stand alone as a string.
-/

namespace RemoteQuery.Json

def string? : Json → Option String
  | .string s => some s
  | _ => none

def bool? : Json → Option Bool
  | .bool b => some b
  | _ => none

def list? : Json → Option (List Json)
  | .array items => some items
  | _ => none

def number? : Json → Option Number
  | .number n => some n
  | _ => none

def char? (j : Json) : Option Char :=
  match j.string?.map String.toList with
  | some [c] => some c
  | _ => none

def integer? (j : Json) : Option Int := j.number?.bind Number.integer?

def int64? (j : Json) : Option Int64 :=
  (j.integer?.filter fun i => (Int64.ofInt i).toInt = i).map Int64.ofInt

def int32? (j : Json) : Option Int32 :=
  (j.integer?.filter fun i => (Int32.ofInt i).toInt = i).map Int32.ofInt

def uint64? (j : Json) : Option UInt64 :=
  ((j.integer?.bind Int.toNat?).filter fun n => (UInt64.ofNat n).toNat = n).map UInt64.ofNat

def orNull? {α : Type} (read : Json → Option α) : Json → Option (Option α)
  | .null => some none
  | j => (read j).map some

def listOf? {α : Type} (read : Json → Option α) (j : Json) : Option (List α) :=
  j.list?.bind (·.mapM read)

structure Field where
  name : String
  /-- The value of the field in an object without it. -/
  absent : Option Json
  trailing : Bool

namespace Field

def required (name : String) : Field := ⟨name, none, false⟩

def nullable (name : String) : Field := ⟨name, some .null, false⟩

def optional (name : String) (default : Json) : Field := ⟨name, some default, true⟩

def ofMembers? (f : Field) (members : List (String × Json)) : Option Json :=
  match members.filter (·.1 == f.name) with
  | [] => f.absent
  | [m] => some m.2
  | _ => none

def ofItems? : List Field → List Json → Option (List Json)
  | [], [] => some []
  | _ :: fs, j :: js => (ofItems? fs js).map (j :: ·)
  | f :: fs, [] => do
    let j ← if f.trailing then f.absent else none
    return j :: (← ofItems? fs [])
  | [], _ :: _ => none

end Field

def record? (fields : List Field) : Json → Option (List Json)
  | .object members => fields.mapM (·.ofMembers? members)
  | .array items => Field.ofItems? fields items
  | _ => none

def bareTag? : Json → Option String
  | .string tag => some tag
  | .object [(tag, .null)] => some tag
  | _ => none

def tagged? : Json → Option (String × Json)
  | .object [(tag, body)] => some (tag, body)
  | _ => none

def tagged (tag : String) (body : Json) : Json := .object [(tag, body)]

@[simp] theorem tagged?_tagged (tag : String) (body : Json) :
    (tagged tag body).tagged? = some (tag, body) := rfl

end RemoteQuery.Json
