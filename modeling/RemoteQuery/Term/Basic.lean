import RemoteQuery.Signature
import RemoteQuery.Literal.Basic
import RemoteQuery.Term.Operator

/-!
# Terms

The body of a query lambda is a tree of typed nodes. All walks over a tree go through one view, the
list of a node's children from left to right, and one operation that puts other children in their
place. Mapping the children visits them in that order and keeps everything else of the node.
-/

namespace RemoteQuery

structure Param where
  name : String
  ty : Ty
deriving DecidableEq

/-- A node with its static type. A member or call without a target is static; a static call has its
receiver, if any, as the first argument. A construction without names is positional. -/
inductive Term where
  | binary (op : BinaryOp) (left right : Term) (ty : Ty)
  | unary (op : UnaryOp) (operand : Term) (ty : Ty)
  | member (target : Option Term) (member : Member)
  | constant (value : Literal) (ty : Ty)
  | call (target : Option Term) (method : Method) (args : List Term)
  | typeTest (target : Term) (tested : Ty)
  | lambda (params : List Param) (body : Term)
  | conditional (test onTrue onFalse : Term) (ty : Ty)
  | param (p : Param)
  | array (elements : List Term) (ty : Ty)
  | construct (names : Option (List String)) (args : List Term) (ty : Ty)
  | listInit (rows : List (List Term)) (ty : Ty)

namespace Term

instance : Inhabited Term := ⟨.constant .null .object⟩

def ty : Term → Ty
  | .binary _ _ _ ty | .unary _ _ ty | .constant _ ty | .conditional _ _ _ ty | .array _ ty
  | .construct _ _ ty | .listInit _ ty => ty
  | .member _ m => m.ty
  | .call _ m _ => m.result
  | .typeTest .. => .boolean
  | .lambda params body => .function (params.map (·.ty)) body.ty
  | .param p => p.ty

def kind : Term → String
  | .binary .. => "Binary"
  | .unary .. => "Unary"
  | .member .. => "MemberAccess"
  | .constant .. => "Constant"
  | .call .. => "MethodCall"
  | .typeTest .. => "TypeTest"
  | .lambda .. => "Lambda"
  | .conditional .. => "Conditional"
  | .param _ => "Parameter"
  | .array .. => "ArrayLiteral"
  | .construct .. => "NewValue"
  | .listInit .. => "ListInit"

def isParamNamed (name : String) : Term → Bool
  | .param p => p.name == name
  | _ => false

def constant? : Term → Option Literal
  | .constant value _ => some value
  | _ => none

def isNullConstant (t : Term) : Bool := t.constant?.any Literal.isNull

def lambda? : Term → Option (List Param × Term)
  | .lambda params body => some (params, body)
  | _ => none

/-- Constructions have a meaning only where a value is projected. -/
def isConstruction : Term → Bool
  | .construct .. | .listInit .. => true
  | _ => false

def children : Term → List Term
  | .binary _ left right _ => [left, right]
  | .unary _ operand _ => [operand]
  | .member target _ => target.toList
  | .constant .. => []
  | .call target _ args => target.toList ++ args
  | .typeTest target _ => [target]
  | .lambda _ body => [body]
  | .conditional test onTrue onFalse _ => [test, onTrue, onFalse]
  | .param _ => []
  | .array elements _ => elements
  | .construct _ args _ => args
  | .listInit rows _ => rows.flatten

def regroup {α β : Type} : List (List α) → List β → List (List β)
  | [], _ => []
  | row :: rows, bs => bs.take row.length :: regroup rows (bs.drop row.length)

theorem regroup_flatten {α : Type} (rows : List (List α)) : regroup rows rows.flatten = rows := by
  induction rows with
  | nil => rfl
  | cons row rows ih => simp [regroup, ih]

theorem flatten_regroup {α β : Type} (rows : List (List α)) (bs : List β)
    (h : bs.length = rows.flatten.length) : (regroup rows bs).flatten = bs := by
  induction rows generalizing bs with
  | nil =>
    have : bs = [] := by simpa using h
    simp [regroup, this]
  | cons row rows ih =>
    rw [List.flatten_cons, List.length_append] at h
    rw [regroup, List.flatten_cons, ih _ (by rw [List.length_drop]; omega), List.take_append_drop]

/-- The node with other children. As many children as the node has are expected; otherwise it stays
as it is. -/
def withChildren : Term → List Term → Term
  | .binary op _ _ ty, [left, right] => .binary op left right ty
  | .unary op _ ty, [operand] => .unary op operand ty
  | .member (some _) m, [target] => .member (some target) m
  | .call (some _) m _, target :: args => .call (some target) m args
  | .call none m _, args => .call none m args
  | .typeTest _ tested, [target] => .typeTest target tested
  | .lambda params _, [body] => .lambda params body
  | .conditional _ _ _ ty, [test, onTrue, onFalse] => .conditional test onTrue onFalse ty
  | .array _ ty, elements => .array elements ty
  | .construct names _ ty, args => .construct names args ty
  | .listInit rows ty, cs => .listInit (regroup rows cs) ty
  | t, _ => t

theorem withChildren_children (t : Term) : t.withChildren t.children = t := by
  cases t with
  | member target m => cases target <;> rfl
  | call target m args => cases target <;> rfl
  | listInit rows ty => simp [children, withChildren, regroup_flatten]
  | _ => rfl

theorem children_withChildren (t : Term) {cs : List Term}
    (h : cs.length = t.children.length) : (t.withChildren cs).children = cs := by
  cases t with
  | binary op l r ty => match cs, h with | [_, _], _ => rfl
  | unary op o ty => match cs, h with | [_], _ => rfl
  | member target m => cases target with
    | none => match cs, h with | [], _ => rfl
    | some t => match cs, h with | [_], _ => rfl
  | constant v ty => match cs, h with | [], _ => rfl
  | call target m args => cases target with
    | none => rfl
    | some t => match cs, h with | _ :: _, _ => rfl
  | typeTest t ty => match cs, h with | [_], _ => rfl
  | lambda ps b => match cs, h with | [_], _ => rfl
  | conditional a b c ty => match cs, h with | [_, _, _], _ => rfl
  | param p => match cs, h with | [], _ => rfl
  | array es ty => rfl
  | construct ns as ty => rfl
  | listInit rows ty => exact flatten_regroup rows cs h

def mapChildrenM {m : Type → Type} [Monad m] (f : Term → m Term) : Term → m Term
  | .binary op left right ty => return .binary op (← f left) (← f right) ty
  | .unary op operand ty => return .unary op (← f operand) ty
  | .member target m => return .member (← target.mapM f) m
  | .constant value ty => return .constant value ty
  | .call target m args => return .call (← target.mapM f) m (← args.mapM f)
  | .typeTest target tested => return .typeTest (← f target) tested
  | .lambda params body => return .lambda params (← f body)
  | .conditional test onTrue onFalse ty =>
    return .conditional (← f test) (← f onTrue) (← f onFalse) ty
  | .param p => return .param p
  | .array elements ty => return .array (← elements.mapM f) ty
  | .construct names args ty => return .construct names (← args.mapM f) ty
  | .listInit rows ty => return .listInit (← rows.mapM fun row => row.mapM f) ty

theorem sizeOf_lt_of_mem_children {t c : Term} (h : c ∈ t.children) : sizeOf c < sizeOf t := by
  have inOption : ∀ {o : Option Term}, c ∈ o.toList → sizeOf c < sizeOf o := by
    intro o ho
    cases o with
    | none => simp at ho
    | some d =>
      have hd : c = d := by simpa using ho
      rw [hd, Option.some.sizeOf_spec]
      omega
  cases t with
  | binary op l r ty =>
    have hc : c = l ∨ c = r := by simpa [children] using h
    rw [binary.sizeOf_spec]
    rcases hc with rfl | rfl <;> omega
  | unary op o ty =>
    have hc : c = o := by simpa [children] using h
    rw [unary.sizeOf_spec, hc]
    omega
  | member target m =>
    have := inOption h
    rw [member.sizeOf_spec]
    omega
  | constant v ty => simp [children] at h
  | call target m args =>
    rw [call.sizeOf_spec]
    rcases List.mem_append.1 h with h | h
    · have := inOption h
      omega
    · have : sizeOf c < sizeOf args := List.sizeOf_lt_of_mem h
      omega
  | typeTest t ty =>
    have hc : c = t := by simpa [children] using h
    rw [typeTest.sizeOf_spec, hc]
    omega
  | lambda ps b =>
    have hc : c = b := by simpa [children] using h
    rw [lambda.sizeOf_spec, hc]
    omega
  | conditional a b d ty =>
    have hc : c = a ∨ c = b ∨ c = d := by simpa [children] using h
    rw [conditional.sizeOf_spec]
    rcases hc with rfl | rfl | rfl <;> omega
  | param p => simp [children] at h
  | array es ty =>
    have : sizeOf c < sizeOf es := List.sizeOf_lt_of_mem h
    rw [array.sizeOf_spec]
    omega
  | construct ns as ty =>
    have : sizeOf c < sizeOf as := List.sizeOf_lt_of_mem h
    rw [construct.sizeOf_spec]
    omega
  | listInit rows ty =>
    obtain ⟨row, hr, hc⟩ := List.mem_flatten.1 h
    have := List.sizeOf_lt_of_mem hr
    have := List.sizeOf_lt_of_mem hc
    rw [listInit.sizeOf_spec]
    omega

theorem inductionOn {motive : Term → Prop} (t : Term)
    (step : ∀ t, (∀ c ∈ t.children, motive c) → motive t) : motive t :=
  step t fun c h =>
    have := sizeOf_lt_of_mem_children h
    inductionOn c step
termination_by sizeOf t

def total : List Nat → Nat
  | [] => 0
  | n :: ns => n + total ns

theorem le_total_of_mem {n : Nat} : ∀ {ns : List Nat}, n ∈ ns → n ≤ total ns
  | m :: ns, h => by
    rw [total]
    rcases List.mem_cons.1 h with rfl | h
    · omega
    · have := le_total_of_mem h
      omega

def nodes (t : Term) : Nat := 1 + total (t.children.attach.map fun c => nodes c.1)
termination_by sizeOf t
decreasing_by exact sizeOf_lt_of_mem_children c.2

theorem nodes_eq (t : Term) : t.nodes = 1 + total (t.children.map nodes) := by
  rw [nodes]; simp

theorem nodes_lt_of_mem_children {t c : Term} (h : c ∈ t.children) : c.nodes < t.nodes := by
  have := le_total_of_mem (List.mem_map_of_mem (f := nodes) h)
  rw [nodes_eq t]; omega

end Term
end RemoteQuery
