import RemoteQuery.Ty.Names
import RemoteQuery.Wire.Render

/-!
# Predicates and projections

A query is a lambda with one parameter, the root of its body. A predicate is the text of the body. A
projection lists what a constructed value is made of, each part with its name; any other body is
one part named `this`.
-/

namespace RemoteQuery

def Term.query : Term → Except Fault (Param × Term)
  | .lambda [p] body => .ok (p, body)
  | .lambda params _ => .error (parametersFault params)
  | t => .error (.unsupported t.kind "expected a lambda expression")

/-- The name and the term of every part of a constructed value: the arguments of a construction,
or the values of rows of a string constant and a value that is not a null constant. -/
def Term.parts? : Term → Option (List (String × Term))
  | .construct names args _ =>
    some (args.mapIdx fun i arg => ((names.bind (·[i]?)).getD (Ty.itemName i), arg))
  | .listInit rows _ => rows.mapM fun row =>
    match row with
    | [key, value] =>
      if value.isNullConstant then none
      else (key.constant?.bind Literal.string?).map (·, value)
    | _ => none
  | _ => none

namespace Dialect

def text (d : Dialect) (root : Option String) (t : Term) : Except Fault String :=
  (d.render root t).map (·.text)

theorem text_eq_ok {d : Dialect} {root : Option String} {t : Term} {text : String} :
    d.text root t = .ok text ↔ ∃ r, d.render root t = .ok r ∧ r.text = text := by
  rw [Dialect.text]
  cases d.render root t with
  | error fault => simp [Except.map]
  | ok r => simp [Except.map]

def bodyText (d : Dialect) (query : Term) : Except Fault String := do
  let (p, body) ← query.query
  d.text (some p.name) body

def predicate (d : Dialect) (query : Term) : Except Fault String := do
  let text ← d.bodyText query
  return if d.dropsOuterParens then stripOuterParens text else text

def namedText (d : Dialect) (root : Option String) (name : String) (t : Term) :
    Except Fault String := do
  return (← d.text root t) ++ " as " ++ name

def projectionOf (d : Dialect) (root : Option String) (body : Term) : Except Fault String :=
  match body.parts? with
  | some parts => do
    return ",".intercalate (← parts.mapM fun part => d.namedText root part.1 part.2)
  | none => d.namedText root "this" body

def projection (d : Dialect) (query : Term) : Except Fault String := do
  let (p, body) ← query.query
  d.projectionOf (some p.name) body

end Dialect
end RemoteQuery
