import RemoteQuery.Term.Scope

/-!
# Terms with a hole

A context is a term with one hole, and filling it puts a term at that position. Constructions are left
out because nothing below one is ever written. What is filled in decides the type of the whole only
through its own type.
-/

namespace RemoteQuery

inductive Context where
  | hole
  | left (op : BinaryOp) (c : Context) (right : Term) (ty : Ty)
  | right (op : BinaryOp) (left : Term) (c : Context) (ty : Ty)
  | unary (op : UnaryOp) (c : Context) (ty : Ty)
  | receiver (c : Context) (m : Member)
  | target (c : Context) (m : Method) (args : List Term)
  | argument (target : Option Term) (m : Method) (before : List Term) (c : Context)
    (after : List Term)
  | tested (c : Context) (ty : Ty)
  | body (params : List Param) (c : Context)
  | test (c : Context) (onTrue onFalse : Term) (ty : Ty)
  | onTrue (test : Term) (c : Context) (onFalse : Term) (ty : Ty)
  | onFalse (test onTrue : Term) (c : Context) (ty : Ty)
  | element (before : List Term) (c : Context) (after : List Term) (ty : Ty)

namespace Context

def fill : Context → Term → Term
  | hole, t => t
  | left op c r ty, t => .binary op (c.fill t) r ty
  | right op l c ty, t => .binary op l (c.fill t) ty
  | unary op c ty, t => .unary op (c.fill t) ty
  | receiver c m, t => .member (some (c.fill t)) m
  | target c m args, t => .call (some (c.fill t)) m args
  | argument o m before c after, t => .call o m (before ++ c.fill t :: after)
  | tested c ty, t => .typeTest (c.fill t) ty
  | body params c, t => .lambda params (c.fill t)
  | test c l r ty, t => .conditional (c.fill t) l r ty
  | onTrue a c r ty, t => .conditional a (c.fill t) r ty
  | onFalse a l c ty, t => .conditional a l (c.fill t) ty
  | element before c after ty, t => .array (before ++ c.fill t :: after) ty

def depth : Context → Nat
  | hole => 0
  | left _ c _ _ | right _ _ c _ | unary _ c _ | receiver c _ | target c _ _ | argument _ _ _ c _
  | tested c _ | body _ c | test c _ _ _ | onTrue _ c _ _ | onFalse _ _ c _ | element _ c _ _ =>
    c.depth + 1

/-- No lambda on the way to the hole binds the name. -/
def Visible (name : String) : Context → Prop
  | hole => True
  | body params c => Term.binds params name = false ∧ c.Visible name
  | left _ c _ _ | right _ _ c _ | unary _ c _ | receiver c _ | target c _ _ | argument _ _ _ c _
  | tested c _ | test c _ _ _ | onTrue _ c _ _ | onFalse _ _ c _ | element _ c _ _ =>
    c.Visible name

theorem ty_fill {t u : Term} (h : t.ty = u.ty) (c : Context) : (c.fill t).ty = (c.fill u).ty := by
  induction c with
  | hole => exact h
  | body params c ih =>
    rw [fill, fill, Term.ty, Term.ty, ih]
  | _ => rfl

end Context
end RemoteQuery
