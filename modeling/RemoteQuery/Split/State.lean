import RemoteQuery.Term.Build
import RemoteQuery.Split.Slots

/-!
# The walk of a split

One walk over a selector's body, from left to right, finds the values that the server sends and why
parts are left to the client, and makes what the client evaluates. It keeps the slots taken so far
and the causes recorded so far.

A leaf takes the slot of its text, the next one on first sight, and is read back from there. The
tuple has no type before all leaves are known, so the reads are made of an untyped parameter. A part
without a text is a cause unless one was recorded below it, and a construction never is.
-/

namespace RemoteQuery

structure SplitState where
  slots : Slots
  causes : List Fault

def SplitState.initial : SplitState := ⟨.empty, []⟩

abbrev SplitM := StateM SplitState

namespace SplitM

def slotFor (text : String) (leaf : Term) : SplitM Nat := do
  modify fun st => { st with slots := st.slots.insert ⟨text, leaf⟩ }
  return (← get).slots.indexOf text

def placeholder (tuple : String) (slot : Nat) (ty : Ty) : Term :=
  .member (some (.parameter tuple (.tuple []))) ⟨"Tuple", Ty.itemName slot, ty⟩

/-- Leaves of different types may share a slot, which has the type of the first one. -/
def leafPlaceholder (tuple : String) (slot : Nat) (ty : Ty) : SplitM Term := do
  match (← get).slots[slot]? with
  | some taken =>
    if taken.term.ty = ty then return placeholder tuple slot ty
    else return (placeholder tuple slot taken.term.ty).converted ty
  | none => return placeholder tuple slot ty

def record (cause : Fault) : SplitM Unit :=
  modify fun st => { st with causes := st.causes ++ [cause] }

def causeCount : SplitM Nat := return (← get).causes.length

def recordOwn (before : Nat) : Option Fault → SplitM Unit
  | none => return
  | some cause => do if (← causeCount) = before then record cause

end SplitM

namespace Splitter

open SplitM

def recordUnsupported (s : Splitter) (t : Term) : SplitM Unit :=
  match s.render t with
  | .ok _ => return
  | .error cause =>
    if t.isConstruction then forM t.children.attach fun c => s.recordUnsupported c.1
    else record cause
termination_by sizeOf t
decreasing_by exact Term.sizeOf_lt_of_mem_children c.2

def visit (s : Splitter) (tuple : String) (t : Term) : SplitM Term := do
  match s.place t with
  | .free =>
    if s.clientUse = .forbidden then s.recordUnsupported t
    return t
  | .captured =>
    let slot ← slotFor rootText (.param s.root)
    return t.replace s.root.name (placeholder tuple slot s.root.ty)
  | .leaf text =>
    let slot ← slotFor text t
    leafPlaceholder tuple slot t.ty
  | .opened why =>
    let before ← causeCount
    let rewritten ← t.withChildren <$> t.children.attach.mapM fun c => s.visit tuple c.1
    recordOwn before (if t.isConstruction then none else why)
    return rewritten
termination_by sizeOf t
decreasing_by exact Term.sizeOf_lt_of_mem_children c.2

end Splitter
end RemoteQuery
