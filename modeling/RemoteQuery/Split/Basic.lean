import RemoteQuery.Split.State

/-!
# Splitting a selector

A selector is split into a tuple of values that the server sends and a lambda over that tuple that
the client evaluates. When the server would send nothing, or nothing but the entity, the client
evaluates the selector itself. Where the client must not evaluate, every part that it would have
to is a cause of failure.
-/

namespace RemoteQuery

/-- The values sent by the server and the projection that asks for them, what the client evaluates,
and why it has to. Without slots there is no projection and the client evaluates the selector. -/
structure Split where
  slots : Slots
  serverText? : Option String
  client : Term
  reasons : List Fault

namespace Split

def arity (s : Split) : Nat := s.slots.length

def server? (s : Split) : Option Term :=
  if s.slots.isEmpty then none else some (.tuple (s.slots.map (·.term)))

def isIdentity (s : Split) : Bool :=
  match s.client with
  | .lambda [p] (.member (some target) m) =>
    s.arity == 1 && m.name == Ty.itemName 0 && target.isParamNamed p.name
  | _ => false

end Split

namespace Dialect

def split (d : Dialect) (clientUse : ClientUse) (selector : Term) : Except Fault Split := do
  let (root, body) ← selector.query
  let s : Splitter := ⟨d, clientUse, root⟩
  let (rewritten, ⟨slots, causes⟩) := (s.visit selector.freshName body).run .initial
  if clientUse = .forbidden ∧ causes ≠ [] then throw (.ofCauses causes)
  if slots.isEmpty ∨ slots.isBareRoot then return ⟨.empty, none, selector, causes⟩
  let tuple : Param := ⟨selector.freshName, slots.tupleType⟩
  let client := Term.lambda [tuple] (rewritten.replace tuple.name (.param tuple))
  let text ← d.projectionOf (some root.name) (.tuple (slots.map (·.term)))
  return ⟨slots, some text, client, causes⟩

end Dialect
end RemoteQuery
