import RemoteQuery.Term.Build
import RemoteQuery.Term.Scope

/-!
# Assembling terms

A term is assembled on a stack, operands before the node that joins them. The operand that was
pushed first is the leftmost one. A step that lacks operands, or asks for a member that the top
does not have, leaves the stack as it was.
-/

namespace RemoteQuery.Assembly

inductive Step where
  | push (t : Term)
  | binary (op : BinaryOp)
  | not
  | convert (ty : Ty)
  | typeAs (ty : Ty)
  | property (name : String) (ty : Ty)
  | field (name : String)
  | call (method : Method) (arity : Nat)
  | staticCall (method : Method) (arity : Nat)
  | typeTest (tested : Ty)
  | lambda (params : List Param)
  | conditional
  | array (length : Nat) (element : Ty)
  | tuple (length : Nat)
  | record (names : List String)
  | listInit (ty : Ty) (lengths : List Nat)
  | duplicate
  | swap
  | drop
  /-- The top stands for the free occurrences of the name in the term below it. -/
  | replace (name : String)

inductive Failure where
  | tooFewOperands
  | noSuchMember
deriving DecidableEq

abbrev Stack := List Term

def operands (n : Nat) (stack : Stack) : Except Failure (List Term × Stack) :=
  if n ≤ stack.length then .ok ((stack.take n).reverse, stack.drop n) else .error .tooFewOperands

def top : Stack → Except Failure (Term × Stack)
  | t :: stack => .ok (t, stack)
  | [] => .error .tooFewOperands

def topTwo : Stack → Except Failure (Term × Term × Stack)
  | right :: left :: stack => .ok (left, right, stack)
  | _ => .error .tooFewOperands

def rows : List Nat → List Term → List (List Term)
  | [], _ => []
  | n :: ns, ts => ts.take n :: rows ns (ts.drop n)

namespace Step

def apply (step : Step) (stack : Stack) : Except Failure Stack := do
  match step with
  | .push t => return t :: stack
  | .binary op =>
    let (left, right, rest) ← topTwo stack
    return .operation op left right :: rest
  | .not =>
    let (t, rest) ← top stack
    return t.negation :: rest
  | .convert ty =>
    let (t, rest) ← top stack
    return t.converted ty :: rest
  | .typeAs ty =>
    let (t, rest) ← top stack
    return t.castAs ty :: rest
  | .property name ty =>
    let (t, rest) ← top stack
    return t.property name ty :: rest
  | .field name =>
    let (t, rest) ← top stack
    match t.field? name with
    | some m => return m :: rest
    | none => throw .noSuchMember
  | .call method arity =>
    let (args, below) ← operands arity stack
    let (target, rest) ← top below
    return .call (some target) method args :: rest
  | .staticCall method arity =>
    let (args, rest) ← operands arity stack
    return .call none method args :: rest
  | .typeTest tested =>
    let (t, rest) ← top stack
    return .typeTest t tested :: rest
  | .lambda params =>
    let (body, rest) ← top stack
    return .lambda params body :: rest
  | .conditional =>
    let (onTrue, onFalse, below) ← topTwo stack
    let (test, rest) ← top below
    return .choice test onTrue onFalse :: rest
  | .array length element =>
    let (elements, rest) ← operands length stack
    return .arrayOf elements element :: rest
  | .tuple length =>
    let (args, rest) ← operands length stack
    return .tuple args :: rest
  | .record names =>
    let (args, rest) ← operands names.length stack
    return .record (names.zip args) :: rest
  | .listInit ty lengths =>
    let (args, rest) ← operands (lengths.foldr (· + ·) 0) stack
    return .listInit (rows lengths args) ty :: rest
  | .duplicate =>
    let (t, _) ← top stack
    return t :: stack
  | .swap =>
    let (left, right, rest) ← topTwo stack
    return left :: right :: rest
  | .drop =>
    let (_, rest) ← top stack
    return rest
  | .replace name =>
    let (t, r, rest) ← topTwo stack
    return t.replace name r :: rest

end Step
end RemoteQuery.Assembly
