import RemoteQuery.Ty.Names
import RemoteQuery.Term.Basic

/-!
# Building terms

Constructors that find the type of a node from its parts. Comparisons and logical operators are
Boolean, arithmetic has the type of its left operand, and a construction has a type made of its
arguments' types.
-/

namespace RemoteQuery.Term

def parameter (name : String) (ty : Ty) : Term := .param ⟨name, ty⟩

def ofLiteral (value : Literal) : Term := .constant value value.naturalType

def nullOf (ty : Ty) : Term := .constant .null ty

def operation (op : BinaryOp) (left right : Term) : Term :=
  .binary op left right (if op.isComparison || op.isLogical then .boolean else left.ty)

def negation (operand : Term) : Term := .unary .not operand .boolean

def converted (operand : Term) (ty : Ty) : Term := .unary .convert operand ty

def castAs (operand : Term) (ty : Ty) : Term := .unary .typeAs operand ty

def property (target : Term) (name : String) (ty : Ty) : Term :=
  .member (some target) ⟨target.ty.descriptor, name, ty⟩

def field? (target : Term) (name : String) : Option Term :=
  (target.ty.memberType? name).map (target.property name)

def staticProperty (owner name : String) (ty : Ty) : Term := .member none ⟨owner, name, ty⟩

def choice (test onTrue onFalse : Term) : Term := .conditional test onTrue onFalse onTrue.ty

def arrayOf (elements : List Term) (element : Ty) : Term := .array elements (.sequence element)

def tuple (args : List Term) : Term := .construct none args (.tuple (args.map ty))

def record (fields : List (String × Term)) : Term :=
  .construct (some (fields.map (·.1))) (fields.map (·.2))
    (.entity "Anonymous" none (fields.map fun f => (f.1, f.2.ty)))

@[simp] theorem ty_parameter (name : String) (ty : Ty) : (parameter name ty).ty = ty := rfl

@[simp] theorem ty_converted (operand : Term) (ty : Ty) : (converted operand ty).ty = ty := rfl

@[simp] theorem ty_property (target : Term) (name : String) (ty : Ty) :
    (target.property name ty).ty = ty := rfl

@[simp] theorem ty_tuple (args : List Term) : (tuple args).ty = .tuple (args.map ty) := rfl

@[simp] theorem children_tuple (args : List Term) : (tuple args).children = args := rfl

end RemoteQuery.Term
