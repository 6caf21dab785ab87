import RemoteQuery.Term.Scope
import RemoteQuery.Wire.Query

/-!
# Placement of terms

Where a part of a selector's body is evaluated. A part that does not mention the root needs
nothing from the server. A nested lambda that mentions it is kept whole and gets the whole entity.
Any other part is a leaf for the server when it has a wire text, and otherwise its children are
placed instead. A mapping that prefers the client keeps a part from being a leaf only while the
client may evaluate.
-/

namespace RemoteQuery

inductive ClientUse where
  | allowed
  | forbidden
deriving DecidableEq

inductive Placement where
  | free
  | captured
  | leaf (text : String)
  /-- The children are placed; the fault tells why the part itself has no text, if it has none. -/
  | opened (why : Option Fault)
deriving DecidableEq

structure Splitter where
  dialect : Dialect
  clientUse : ClientUse
  root : Param

namespace Splitter

def render (s : Splitter) (t : Term) : Except Fault Rendered :=
  s.dialect.render (some s.root.name) t

def place (s : Splitter) (t : Term) : Placement :=
  if !t.mentions s.root.name then .free
  else if t.lambda?.isSome then .captured
  else match s.render t with
    | .error why => .opened (some why)
    | .ok r => if r.prefersLocal && s.clientUse = .allowed then .opened none else .leaf r.text

end Splitter
end RemoteQuery
