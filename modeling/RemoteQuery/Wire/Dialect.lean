import RemoteQuery.Text.LetterCase
import RemoteQuery.Mapping.Standard
import RemoteQuery.Term.Basic

/-!
# Dialects

A dialect fixes what is free in the wire language: the mappings of members, the letter case of
member names, and whether a predicate loses its enclosing parentheses. A method call is written in
one of three forms, which the method's name and the types of the operands decide.
-/

namespace RemoteQuery

inductive Naming where
  | camelCase
  | verbatim
deriving DecidableEq

def Naming.apply : Naming → String → String
  | .camelCase, name => LetterCase.lowerFirst name
  | .verbatim, name => name

structure Dialect where
  mappings : MappingTable
  naming : Naming
  dropsOuterParens : Bool

def Dialect.standard : Dialect := ⟨.standard, .camelCase, true⟩

def Dialect.camelCased : Dialect := ⟨.empty, .camelCase, true⟩

def Dialect.verbatim : Dialect := ⟨.empty, .verbatim, true⟩

def isRoot (root : Option String) (t : Term) : Bool := root.any fun name => t.isParamNamed name

/-- The root as seen in a lambda's body: a parameter of that name hides it. -/
def rootUnder (root : Option String) (p : Param) : Option String :=
  if root = some p.name then none else root

/-- The form of a method call. Only the operands count, whether the receiver is the target or the
first argument. -/
inductive CallForm where
  | membership (set value : Term)
  | lookup (dictionary key : Term) (safe : Bool)
  | mapped

namespace CallForm

def of (method : Method) (operands : List Term) : CallForm :=
  match operands with
  | [receiver, other] =>
    if method.name = "Contains" ∧ receiver.ty.isSequence then .membership receiver other
    else if method.name = "get_Item" ∧ receiver.ty.isDictionary then .lookup receiver other false
    else if method.name = "GetValueOrDefault" ∧ receiver.ty.isDictionary then
      .lookup receiver other true
    else .mapped
  | _ => .mapped

theorem operands_of_membership {method : Method} {operands : List Term} {set value : Term}
    (h : of method operands = .membership set value) : operands = [set, value] := by
  unfold of at h
  split at h
  · split at h
    · simp_all
    · split at h
      · simp at h
      · split at h <;> simp at h
  · simp at h

theorem operands_of_lookup {method : Method} {operands : List Term} {dictionary key : Term}
    {safe : Bool} (h : of method operands = .lookup dictionary key safe) :
    operands = [dictionary, key] := by
  unfold of at h
  split at h
  · split at h
    · simp at h
    · split at h
      · simp_all
      · split at h <;> simp_all
  · simp at h

theorem mem_of_membership {method : Method} {operands : List Term} {set value : Term}
    (h : of method operands = .membership set value) : set ∈ operands ∧ value ∈ operands := by
  rw [operands_of_membership h]; simp

theorem mem_of_lookup {method : Method} {operands : List Term} {dictionary key : Term} {safe : Bool}
    (h : of method operands = .lookup dictionary key safe) : dictionary ∈ operands := by
  rw [operands_of_lookup h]; simp

end CallForm

def Method.mappedSignature (m : Method) : Signature :=
  (if m.operatesOnQuery then m.sequenceEquivalent else m).signature

def isIdentifier (key : String) : Bool :=
  match key.toList with
  | [] => false
  | c :: cs => (c.isAlpha || c == '_') && cs.all fun c => c.isAlphanum || c == '_'

end RemoteQuery
