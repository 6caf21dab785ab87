import RemoteQuery.Json.Printer
import RemoteQuery.Json.Record
import RemoteQuery.Signature

/-!
# Types and members in documents

A type is a tagged value. Reading goes down one level of the document at a time and never deeper
than the document is nested.
-/

namespace RemoteQuery

def Scalar.toJson (s : Scalar) : Json := .string s.name

def Scalar.ofJson? (j : Json) : Option Scalar := j.bareTag?.bind Scalar.ofName?

namespace Enumeration

def memberToJson (m : String × Int64) : Json := .array [.string m.1, .ofInt m.2.toInt]

def memberOfJson? (j : Json) : Option (String × Int64) := do
  match ← j.list? with
  | [symbol, value] => return (← symbol.string?, ← value.int64?)
  | _ => none

def toJson (e : Enumeration) : Json :=
  .object [("name", .string e.name), ("underlying", e.underlying.toJson),
    ("members", .array (e.members.map memberToJson)), ("is_flags", .bool e.isFlags)]

def fields : List Json.Field :=
  [.required "name", .required "underlying", .required "members",
    .optional "is_flags" (.bool false)]

def ofJson? (j : Json) : Option Enumeration := do
  match ← j.record? fields with
  | [name, underlying, members, isFlags] =>
    return ⟨← name.string?, ← Scalar.ofJson? underlying, ← members.listOf? memberOfJson?,
      ← isFlags.bool?⟩
  | _ => none

end Enumeration

namespace Ty

mutual
def toJson : Ty → Json
  | .scalar s => .tagged "Primitive" s.toJson
  | .nullable inner => .tagged "Nullable" inner.toJson
  | .enum e => .tagged "Enum" e.toJson
  | .entity name externalName fields => .tagged "Entity" (.object
    [("name", .string name), ("external_name", .ofString? externalName),
      ("fields", .array (fieldsToJson fields))])
  | .sequence element => .tagged "Sequence" element.toJson
  | .query element => .tagged "Query" element.toJson
  | .dictionary key value => .tagged "Dictionary" (.array [key.toJson, value.toJson])
  | .tuple items => .tagged "Tuple" (.array (itemsToJson items))
  | .function params result =>
    .tagged "Function" (.array [.array (itemsToJson params), result.toJson])
  | .typeLiteral => .string "TypeLiteral"
def itemsToJson : List Ty → List Json
  | [] => []
  | t :: ts => t.toJson :: itemsToJson ts
def fieldsToJson : List (String × Ty) → List Json
  | [] => []
  | (name, t) :: fs => .object [("name", .string name), ("ty", t.toJson)] :: fieldsToJson fs
end

theorem itemsToJson_eq_map (ts : List Ty) : itemsToJson ts = ts.map toJson := by
  induction ts with
  | nil => rfl
  | cons t ts ih => simp [itemsToJson, ih]

def namedOfJson? (read : Json → Option Ty) (j : Json) : Option (String × Ty) := do
  match ← j.record? [.required "name", .required "ty"] with
  | [name, ty] => return (← name.string?, ← read ty)
  | _ => none

def entityFields : List Json.Field :=
  [.required "name", .optional "external_name" .null, .optional "fields" (.array [])]

def decode : Nat → Json → Option Ty
  | 0, _ => none
  | depth + 1, j =>
    if j.bareTag? = some "TypeLiteral" then some .typeLiteral
    else do
      let (tag, body) ← j.tagged?
      match tag with
      | "Primitive" => return .scalar (← Scalar.ofJson? body)
      | "Nullable" => return .nullable (← decode depth body)
      | "Enum" => return .enum (← Enumeration.ofJson? body)
      | "Entity" =>
        match ← body.record? entityFields with
        | [name, externalName, fields] =>
          return .entity (← name.string?) (← externalName.orNull? Json.string?)
            (← fields.listOf? (namedOfJson? (decode depth)))
        | _ => none
      | "Sequence" => return .sequence (← decode depth body)
      | "Query" => return .query (← decode depth body)
      | "Dictionary" =>
        match ← body.list? with
        | [key, value] => return .dictionary (← decode depth key) (← decode depth value)
        | _ => none
      | "Tuple" => return .tuple (← body.listOf? (decode depth))
      | "Function" =>
        match ← body.list? with
        | [params, result] =>
          return .function (← params.listOf? (decode depth)) (← decode depth result)
        | _ => none
      | _ => none

def ofJson? (j : Json) : Option Ty := decode (j.depth + 1) j

end Ty

namespace Signature

def toJson (s : Signature) : Json :=
  .object [("declaring", .string s.owner), ("name", .string s.name),
    ("params", .ofOption (s.params.map fun ps => .array (ps.map .string)))]

def ofJson? (j : Json) : Option Signature := do
  match ← j.record? [.required "declaring", .required "name", .nullable "params"] with
  | [owner, name, params] =>
    return ⟨← owner.string?, ← name.string?, ← params.orNull? (Json.listOf? Json.string?)⟩
  | _ => none

end Signature

namespace Member

def toJson (m : Member) : Json :=
  .object [("declaring", .string m.owner), ("name", .string m.name), ("ty", m.ty.toJson)]

def ofJson? (j : Json) : Option Member := do
  match ← j.record? [.required "declaring", .required "name", .required "ty"] with
  | [owner, name, ty] => return ⟨← owner.string?, ← name.string?, ← Ty.ofJson? ty⟩
  | _ => none

end Member

namespace Method

def toJson (m : Method) : Json :=
  .object [("declaring", .string m.owner), ("name", .string m.name),
    ("params", .array (m.params.map Ty.toJson)), ("return_type", m.result.toJson)]

def fields : List Json.Field :=
  [.required "declaring", .required "name", .required "params", .required "return_type"]

def ofJson? (j : Json) : Option Method := do
  match ← j.record? fields with
  | [owner, name, params, result] =>
    return ⟨← owner.string?, ← name.string?, ← params.listOf? Ty.ofJson?, ← Ty.ofJson? result⟩
  | _ => none

end Method
end RemoteQuery
