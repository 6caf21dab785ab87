import RemoteQuery.Signature
import RemoteQuery.Template

/-!
# Mappings of members to wire calls

A mapping tells how a member is written on the wire: by a template for a call that is chained to its
receiver and one for a call that takes everything as arguments, and which of the two is preferred. A
mapping table holds at most one mapping for a signature; registering one replaces the other.
-/

namespace RemoteQuery

inductive CallStyle where
  | chained
  | static
deriving DecidableEq

structure Mapping where
  signature : Signature
  style : CallStyle
  chainedTemplate : String
  staticTemplate : String
  /-- The server can evaluate the member, but a split leaves it to the client. -/
  prefersLocal : Bool
deriving DecidableEq

namespace Mapping

def placeholder (index : Nat) : String := "\x7b" ++ toString index ++ "\x7d"

def staticCall (name : String) (args : List String) : String :=
  name ++ "(" ++ ",".intercalate args ++ ")"

def chainedCall (name : String) : List String → String
  | [] => staticCall name []
  | receiver :: args => receiver ++ "." ++ staticCall name args

def function (signature : Signature) (style : CallStyle) (name : String) (arity : Nat) : Mapping :=
  let args := (List.range arity).map placeholder
  ⟨signature, style, chainedCall name args, staticCall name args, false⟩

def template (m : Mapping) : String :=
  match m.style with
  | .chained => m.chainedTemplate
  | .static => m.staticTemplate

def fill (m : Mapping) (args : List String) : Except Template.Fault String :=
  Template.fill m.template args

end Mapping

structure MappingTable where
  entries : List Mapping

namespace MappingTable

def empty : MappingTable := ⟨[]⟩

def size (t : MappingTable) : Nat := t.entries.length

def resolve? (t : MappingTable) (s : Signature) : Option Mapping :=
  t.entries.find? (·.signature == s)

def register (t : MappingTable) (m : Mapping) : MappingTable :=
  if t.entries.any (·.signature == m.signature) then
    ⟨t.entries.map fun e => if e.signature == m.signature then m else e⟩
  else ⟨t.entries ++ [m]⟩

def ofList (ms : List Mapping) : MappingTable := ms.foldl register empty

def sorted (t : MappingTable) : List Mapping :=
  t.entries.mergeSort fun a b => a.signature.text ≤ b.signature.text

end MappingTable
end RemoteQuery
