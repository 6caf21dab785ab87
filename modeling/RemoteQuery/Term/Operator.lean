/-!
# Operators of terms
-/

namespace RemoteQuery

inductive BinaryOp where
  | and
  | or
  | equal
  | notEqual
  | greaterThan
  | greaterThanOrEqual
  | lessThan
  | lessThanOrEqual
  | add
  | subtract
  | multiply
  | divide
  | modulo
  | coalesce
  | exclusiveOr
  | power
deriving DecidableEq

namespace BinaryOp

def all : List BinaryOp :=
  [and, or, equal, notEqual, greaterThan, greaterThanOrEqual, lessThan, lessThanOrEqual, add,
    subtract, multiply, divide, modulo, coalesce, exclusiveOr, power]

def name : BinaryOp → String
  | and => "And"
  | or => "Or"
  | equal => "Equal"
  | notEqual => "NotEqual"
  | greaterThan => "GreaterThan"
  | greaterThanOrEqual => "GreaterThanOrEqual"
  | lessThan => "LessThan"
  | lessThanOrEqual => "LessThanOrEqual"
  | add => "Add"
  | subtract => "Subtract"
  | multiply => "Multiply"
  | divide => "Divide"
  | modulo => "Modulo"
  | coalesce => "Coalesce"
  | exclusiveOr => "ExclusiveOr"
  | power => "Power"

def ofName? (s : String) : Option BinaryOp := all.find? (·.name == s)

theorem ofName?_name (op : BinaryOp) : ofName? op.name = some op := by cases op <;> decide

def token? : BinaryOp → Option String
  | and => some "and"
  | or => some "or"
  | equal => some "eq"
  | notEqual => some "ne"
  | greaterThan => some "gt"
  | greaterThanOrEqual => some "ge"
  | lessThan => some "lt"
  | lessThanOrEqual => some "le"
  | add => some "add"
  | subtract => some "sub"
  | multiply => some "mul"
  | divide => some "div"
  | modulo => some "mod"
  | coalesce | exclusiveOr | power => none

def isComparison : BinaryOp → Bool
  | equal | notEqual | greaterThan | greaterThanOrEqual | lessThan | lessThanOrEqual => true
  | _ => false

def isLogical : BinaryOp → Bool
  | and | or => true
  | _ => false

end BinaryOp

/-- `typeAs` yields null where a reference has another type; `convert` changes between numbers,
enumerations and nullable types. -/
inductive UnaryOp where
  | not
  | negate
  | typeAs
  | convert
deriving DecidableEq

namespace UnaryOp

def all : List UnaryOp := [not, negate, typeAs, convert]

def name : UnaryOp → String
  | not => "Not"
  | negate => "Negate"
  | typeAs => "TypeAs"
  | convert => "Convert"

def ofName? (s : String) : Option UnaryOp := all.find? (·.name == s)

theorem ofName?_name (op : UnaryOp) : ofName? op.name = some op := by cases op <;> decide

end UnaryOp
end RemoteQuery
