import RemoteQuery.Json.Types
import RemoteQuery.Term.Basic

/-!
# Literals and terms in documents

Literals and terms are tagged values. A float is a number, and null where it is not finite.
-/

namespace RemoteQuery

namespace Zone

def toJson : Zone → Json
  | .unspecified => .string "Unspecified"
  | .utc => .string "Utc"
  | .offset seconds => .tagged "Offset" (.ofInt seconds.toInt)

def ofJson? (j : Json) : Option Zone :=
  if j.bareTag? = some "Unspecified" then some .unspecified
  else if j.bareTag? = some "Utc" then some .utc
  else do
    let ("Offset", body) ← j.tagged? | none
    return .offset (← body.int32?)

end Zone

namespace Literal

def dateTimeToJson (t : DateTime) (zone : Zone) : Json :=
  .object [("value", .string (String.ofList t.text)), ("kind", zone.toJson)]

mutual
def toJson : Literal → Json
  | .null => .string "Null"
  | .bool b => .tagged "Bool" (.bool b)
  | .int i => .tagged "Int" (.ofInt i.toInt)
  | .single s => .tagged "Float" s.toJson
  | .double d => .tagged "Double" d.toJson
  | .decimal d => .tagged "Decimal" (.string (String.ofList d.text))
  | .string s => .tagged "String" (.string s)
  | .char c => .tagged "Char" (.string (String.ofList [c]))
  | .dateTime t zone => .tagged "DateTime" (dateTimeToJson t zone)
  | .guid g => .tagged "Guid" (.string (String.ofList g.text))
  | .enum e raw => .tagged "Enum" (.object [("def", e.toJson), ("raw", .ofInt raw.toInt)])
  | .type t => .tagged "Type" t.toJson
  | .sequence items => .tagged "Sequence" (.array (itemsToJson items))
def itemsToJson : List Literal → List Json
  | [] => []
  | l :: ls => l.toJson :: itemsToJson ls
end

theorem itemsToJson_eq_map (ls : List Literal) : itemsToJson ls = ls.map toJson := by
  induction ls with
  | nil => rfl
  | cons l ls ih => simp [itemsToJson, ih]

def decode : Nat → Json → Option Literal
  | 0, _ => none
  | depth + 1, j =>
    if j.bareTag? = some "Null" then some .null
    else do
      let (tag, body) ← j.tagged?
      match tag with
      | "Bool" => return .bool (← body.bool?)
      | "Int" => return .int (← body.int64?)
      | "Float" => return .single (← body.number?.bind Json.Number.toSingle?)
      | "Double" => return .double (← body.number?.bind Json.Number.toDouble?)
      | "Decimal" => return .decimal (← Decimal.read? (← body.string?).toList)
      | "String" => return .string (← body.string?)
      | "Char" => return .char (← body.char?)
      | "DateTime" =>
        match ← body.record? [.required "value", .required "kind"] with
        | [value, kind] =>
          return .dateTime (← DateTime.read? (← value.string?).toList) (← Zone.ofJson? kind)
        | _ => none
      | "Guid" => return .guid (← Guid.read? (← body.string?).toList)
      | "Enum" =>
        match ← body.record? [.required "def", .required "raw"] with
        | [e, raw] => return .enum (← Enumeration.ofJson? e) (← raw.int64?)
        | _ => none
      | "Type" => return .type (← Ty.ofJson? body)
      | "Sequence" => return .sequence (← body.listOf? (decode depth))
      | _ => none

def ofJson? (j : Json) : Option Literal := decode (j.depth + 1) j

end Literal

namespace Param

def toJson (p : Param) : Json := .object [("name", .string p.name), ("ty", p.ty.toJson)]

def ofJson? (j : Json) : Option Param :=
  (Ty.namedOfJson? Ty.ofJson? j).map fun p => ⟨p.1, p.2⟩

end Param

def BinaryOp.ofJson? (j : Json) : Option BinaryOp := j.bareTag?.bind ofName?

def UnaryOp.ofJson? (j : Json) : Option UnaryOp := j.bareTag?.bind ofName?

namespace Term

mutual
def toJson : Term → Json
  | .binary op left right ty => .tagged "Binary" (.object
    [("op", .string op.name), ("left", left.toJson), ("right", right.toJson), ("ty", ty.toJson)])
  | .unary op operand ty => .tagged "Unary" (.object
    [("kind", .string op.name), ("operand", operand.toJson), ("ty", ty.toJson)])
  | .member target m => .tagged "MemberAccess" (.object
    [("target", targetToJson target), ("member", m.toJson)])
  | .constant value ty => .tagged "Constant" (.object
    [("value", value.toJson), ("ty", ty.toJson)])
  | .call target method args => .tagged "MethodCall" (.object
    [("target", targetToJson target), ("method", method.toJson),
      ("args", .array (listToJson args))])
  | .typeTest target tested => .tagged "TypeTest" (.object
    [("target", target.toJson), ("tested", tested.toJson)])
  | .lambda params body => .tagged "Lambda" (.object
    [("params", .array (params.map Param.toJson)), ("body", body.toJson)])
  | .conditional test onTrue onFalse ty => .tagged "Conditional" (.object
    [("test", test.toJson), ("then", onTrue.toJson), ("otherwise", onFalse.toJson),
      ("ty", ty.toJson)])
  | .param p => .tagged "Parameter" p.toJson
  | .array elements ty => .tagged "ArrayLiteral" (.object
    [("elements", .array (listToJson elements)), ("ty", ty.toJson)])
  | .construct names args ty => .tagged "NewValue" (.object
    [("members", .ofOption (names.map fun ns => .array (ns.map .string))),
      ("args", .array (listToJson args)), ("ty", ty.toJson)])
  | .listInit rows ty => .tagged "ListInit" (.object
    [("initializers", .array (rowsToJson rows)), ("ty", ty.toJson)])
def targetToJson : Option Term → Json
  | none => .null
  | some t => t.toJson
def listToJson : List Term → List Json
  | [] => []
  | t :: ts => t.toJson :: listToJson ts
def rowsToJson : List (List Term) → List Json
  | [] => []
  | row :: rows => .array (listToJson row) :: rowsToJson rows
end

theorem listToJson_eq_map (ts : List Term) : listToJson ts = ts.map toJson := by
  induction ts with
  | nil => rfl
  | cons t ts ih => simp [listToJson, ih]

theorem rowsToJson_eq_map (rows : List (List Term)) :
    rowsToJson rows = rows.map fun row => .array (row.map toJson) := by
  induction rows with
  | nil => rfl
  | cons row rows ih => simp [rowsToJson, listToJson_eq_map, ih]

def fieldsOf : String → Option (List Json.Field)
  | "Binary" => some [.required "op", .required "left", .required "right", .required "ty"]
  | "Unary" => some [.required "kind", .required "operand", .required "ty"]
  | "MemberAccess" => some [.nullable "target", .required "member"]
  | "Constant" => some [.required "value", .required "ty"]
  | "MethodCall" => some [.nullable "target", .required "method", .required "args"]
  | "TypeTest" => some [.required "target", .required "tested"]
  | "Lambda" => some [.required "params", .required "body"]
  | "Conditional" =>
    some [.required "test", .required "then", .required "otherwise", .required "ty"]
  | "Parameter" => some [.required "name", .required "ty"]
  | "ArrayLiteral" => some [.required "elements", .required "ty"]
  | "NewValue" => some [.nullable "members", .required "args", .required "ty"]
  | "ListInit" => some [.required "initializers", .required "ty"]
  | _ => none

def nodeOf? (read : Json → Option Term) : String → List Json → Option Term
  | "Binary", [op, left, right, ty] =>
    return .binary (← BinaryOp.ofJson? op) (← read left) (← read right)
      (← Ty.ofJson? ty)
  | "Unary", [op, operand, ty] =>
    return .unary (← UnaryOp.ofJson? op) (← read operand) (← Ty.ofJson? ty)
  | "MemberAccess", [target, m] =>
    return .member (← target.orNull? read) (← Member.ofJson? m)
  | "Constant", [value, ty] => return .constant (← Literal.ofJson? value) (← Ty.ofJson? ty)
  | "MethodCall", [target, method, args] =>
    return .call (← target.orNull? read) (← Method.ofJson? method)
      (← args.listOf? read)
  | "TypeTest", [target, tested] =>
    return .typeTest (← read target) (← Ty.ofJson? tested)
  | "Lambda", [params, body] =>
    return .lambda (← params.listOf? Param.ofJson?) (← read body)
  | "Conditional", [test, onTrue, onFalse, ty] =>
    return .conditional (← read test) (← read onTrue) (← read onFalse)
      (← Ty.ofJson? ty)
  | "Parameter", [name, ty] => return .param ⟨← name.string?, ← Ty.ofJson? ty⟩
  | "ArrayLiteral", [elements, ty] =>
    return .array (← elements.listOf? read) (← Ty.ofJson? ty)
  | "NewValue", [names, args, ty] =>
    return .construct (← names.orNull? (Json.listOf? Json.string?))
      (← args.listOf? read) (← Ty.ofJson? ty)
  | "ListInit", [rows, ty] =>
    return .listInit (← rows.listOf? (Json.listOf? read)) (← Ty.ofJson? ty)
  | _, _ => none

def decode : Nat → Json → Option Term
  | 0, _ => none
  | depth + 1, j => do
    let (tag, body) ← j.tagged?
    nodeOf? (decode depth) tag (← body.record? (← fieldsOf tag))

def ofJson? (j : Json) : Option Term := decode (j.depth + 1) j

end Term
end RemoteQuery
