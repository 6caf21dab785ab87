import RemoteQuery.Text.Brackets
import RemoteQuery.Fault
import RemoteQuery.Literal.Text
import RemoteQuery.Wire.Dialect
import RemoteQuery.Wire.Operand

/-!
# Wire text of terms

The text of a term is made of the texts of its parts. The root, the parameter that stands for the
queried entity, is written `this` where it stands alone and is left out before a member. Binary
operations carry their parentheses; `in` and `not` do not. Beside the text it is noted whether a
mapping was used that a split leaves to the client. The first fault from left to right is the one
reported.
-/

namespace RemoteQuery

structure Rendered where
  text : String
  prefersLocal : Bool
deriving DecidableEq

namespace Rendered

def plain (text : String) : Rendered := ⟨text, false⟩

def map (f : String → String) (r : Rendered) : Rendered := ⟨f r.text, r.prefersLocal⟩

def map₂ (f : String → String → String) (r s : Rendered) : Rendered :=
  ⟨f r.text s.text, r.prefersLocal || s.prefersLocal⟩

def ofList (f : List String → String) (rs : List Rendered) : Rendered :=
  ⟨f (rs.map (·.text)), rs.any (·.prefersLocal)⟩

end Rendered

def constantText (value : Literal) (ty : Ty) : String :=
  match value, ty.underlyingEnum? with
  | .int raw, some e => quote (e.format raw)
  | value, _ => value.text

/-- Enumerations are written as symbols and nullability is not, so such conversions are not
written. -/
def isSilentConversion (operand ty : Ty) : Bool :=
  operand.underlyingEnum?.isSome || operand.nonNullable = ty.nonNullable

def lookupText (receiver : Option String) (key : String) (safe : Bool) : String :=
  if safe && isIdentifier key then
    match receiver with
    | some receiver => receiver ++ "." ++ key
    | none => key
  else receiver.getD "this" ++ "[" ++ quote key ++ "]"

def lookupFault (method : Method) (key : Term) : Fault :=
  .malformed (method.owner ++ "." ++ method.name)
    ("key must be a string constant, found " ++ key.kind)

def operatorFault (op : BinaryOp) : Fault :=
  .unsupported "Binary" ("operator " ++ op.name ++ " has no wire token")

def parametersFault (params : List Param) : Fault :=
  .unsupported "Lambda" ("expected one parameter, found " ++ toString params.length)

namespace Mapping

def write (m : Mapping) (args : List Rendered) : Except Fault Rendered :=
  match m.fill (args.map (·.text)) with
  | .ok text => .ok ⟨text, m.prefersLocal || args.any (·.prefersLocal)⟩
  | .error fault => .error (.template fault)

end Mapping

namespace Dialect

/-- The text of a term, with the parameter named `root` as the root. -/
def render (d : Dialect) (root : Option String) (t : Term) : Except Fault Rendered :=
  match t with
  | .binary op left right _ =>
    match op.token? with
    | none => .error (operatorFault op)
    | some token => do
      let l ← d.render root (Operand.normalise op left right).1
      let r ← d.render root (Operand.normalise op left right).2
      return .map₂ (fun l r => "(" ++ l ++ " " ++ token ++ " " ++ r ++ ")") l r
  | .unary .not operand _ => do
    return (← d.render root operand).map fun s => "not (" ++ stripOuterParens s ++ ")"
  | .unary .negate _ _ => .error (.unsupported "Unary" "arithmetic negation has no wire form")
  | .unary .typeAs operand ty => do
    return (← d.render root operand).map fun s => "(" ++ s ++ " as " ++ ty.wireName ++ ")"
  | .unary .convert operand ty =>
    if isSilentConversion operand.ty ty then d.render root operand
    else if isRoot root operand then .ok (.plain ("cast(" ++ ty.wireName ++ ")"))
    else do return (← d.render root operand).map fun s => "cast(" ++ s ++ "," ++ ty.wireName ++ ")"
  | .member none m =>
    match d.mappings.resolve? m.signature with
    | some mapping => mapping.write []
    | none => .error (.unmapped m.signature)
  | .member (some target) m =>
    match d.mappings.resolve? m.signature with
    | some mapping => do mapping.write [← d.render root target]
    | none =>
      if isRoot root target then .ok (.plain (d.naming.apply m.name))
      else do return (← d.render root target).map fun s => s ++ "." ++ d.naming.apply m.name
  | .constant value ty => .ok (.plain (constantText value ty))
  | .call target method args =>
    match _form : CallForm.of method (target.toList ++ args) with
    | .membership set value => do
      let v ← d.render root value
      let s ← d.render root set
      return .map₂ (fun v s => v ++ " in " ++ s) v s
    | .lookup dictionary key safe =>
      match key.constant?.bind Literal.string? with
      | none => .error (lookupFault method key)
      | some name =>
        if isRoot root dictionary then .ok (.plain (lookupText none name safe))
        else do return (← d.render root dictionary).map fun s => lookupText (some s) name safe
    | .mapped =>
      match d.mappings.resolve? method.mappedSignature with
      | none => .error (.unmapped method.mappedSignature)
      | some mapping => do
        mapping.write (← (target.toList ++ args).mapM fun a => d.render root a)
  | .typeTest target tested =>
    if isRoot root target then .ok (.plain ("isof(" ++ tested.wireName ++ ")"))
    else do
      return (← d.render root target).map fun s => "isof(" ++ s ++ "," ++ tested.wireName ++ ")"
  | .lambda [p] body => do
    return (← d.render (rootUnder root p) body).map fun s => p.name ++ ":" ++ s
  | .lambda params _ => .error (parametersFault params)
  | .conditional test onTrue onFalse _ => do
    let a ← d.render root test
    let b ← d.render root onTrue
    let c ← d.render root onFalse
    return .ofList (fun texts => "iif(" ++ ",".intercalate texts ++ ")") [a, b, c]
  | .param p => .ok (.plain (if root = some p.name then "this" else p.name))
  | .array elements _ => do
    return .ofList (fun texts => "[" ++ ",".intercalate texts ++ "]")
      (← elements.mapM fun e => d.render root e)
  | .construct .. | .listInit .. =>
    .error (.unsupported t.kind "construction is only valid as a projection root")
termination_by t.nodes
decreasing_by
  · exact Operand.nodes_fst_normalise_lt op left right _
  · exact Operand.nodes_snd_normalise_lt op left right _
  iterate 6 exact Term.nodes_lt_of_mem_children (by simp [Term.children])
  · exact Term.nodes_lt_of_mem_children (CallForm.mem_of_membership _form).2
  · exact Term.nodes_lt_of_mem_children (CallForm.mem_of_membership _form).1
  · exact Term.nodes_lt_of_mem_children (CallForm.mem_of_lookup _form)
  · exact Term.nodes_lt_of_mem_children (by assumption)
  all_goals exact Term.nodes_lt_of_mem_children (by simp [Term.children, *])

end Dialect
end RemoteQuery
