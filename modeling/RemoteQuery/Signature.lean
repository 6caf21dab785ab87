import RemoteQuery.Ty.Names

/-!
# Members, methods and their signatures

A signature names a member by the descriptor of its declaring type, its own name and, for a method,
the descriptors of its parameters. Signatures are the keys of the mapping table. A method over a
remotely composed query has an equivalent over a sequence in memory.
-/

namespace RemoteQuery

/-- A property or field when `params` is missing, a method otherwise. -/
structure Signature where
  owner : String
  name : String
  params : Option (List String)
deriving DecidableEq

structure Member where
  owner : String
  name : String
  ty : Ty
deriving DecidableEq

/-- The parameters do not count the receiver of an instance method. -/
structure Method where
  owner : String
  name : String
  params : List Ty
  result : Ty
deriving DecidableEq

namespace Signature

def text (s : Signature) : String :=
  s.owner ++ "." ++ s.name ++ match s.params with
    | none => ""
    | some ps => "(" ++ ", ".intercalate ps ++ ")"

def arity (s : Signature) (hasTarget : Bool) : Nat :=
  (s.params.elim 0 List.length) + if hasTarget then 1 else 0

end Signature

def Member.signature (m : Member) : Signature := ⟨m.owner, m.name, none⟩

namespace Method

def signature (m : Method) : Signature := ⟨m.owner, m.name, some (m.params.map Ty.descriptor)⟩

def operatesOnQuery (m : Method) : Bool :=
  m.owner == "Queryable" || m.params.any fun t => match t with
    | .query _ => true
    | _ => false

def inMemory : Ty → Ty
  | .query element => .sequence element
  | t => t

def sequenceEquivalent (m : Method) : Method where
  owner := if m.owner = "Queryable" then "Enumerable" else m.owner
  name := m.name
  params := m.params.map inMemory
  result := inMemory m.result

end Method
end RemoteQuery
