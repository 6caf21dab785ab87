import RemoteQuery.Text.Digits
import RemoteQuery.Ty.Basic

/-!
# Names of types

A type has three names. The descriptor stands in signatures and keeps only the outermost shape, so
that one mapping serves every element type. The wire name is used by casts, type tests and type
literals. The display name spells the whole type out. The members of entities and tuples have types
of their own.
-/

namespace RemoteQuery.Ty

def descriptor : Ty → String
  | .scalar s => s.name
  | .nullable _ => "Nullable"
  | .enum e => e.name
  | .entity name _ _ => name
  | .sequence _ => "Sequence"
  | .query _ => "Query"
  | .dictionary .. => "Dictionary"
  | .tuple _ => "Tuple"
  | .function .. => "Lambda"
  | .typeLiteral => "Type"

def wireName : Ty → String
  | .scalar s => s.name
  | .nullable inner => inner.wireName ++ "?"
  | .enum e => e.name
  | .entity name externalName _ => externalName.getD name
  | .sequence element | .query element => "Collection(" ++ element.wireName ++ ")"
  | .dictionary .. => "Dictionary"
  | .tuple items => "Tuple" ++ toString items.length
  | .function .. => "Lambda"
  | .typeLiteral => "Type"

mutual
def display : Ty → String
  | .scalar s => s.name
  | .nullable inner => "Nullable<" ++ inner.display ++ ">"
  | .enum e => e.name
  | .entity name _ _ => name
  | .sequence element => "Sequence<" ++ element.display ++ ">"
  | .query element => "Query<" ++ element.display ++ ">"
  | .dictionary key value => "Dictionary<" ++ key.display ++ ", " ++ value.display ++ ">"
  | .tuple items => "Tuple<" ++ ", ".intercalate (displayItems items) ++ ">"
  | .function params result =>
    "Func<" ++ ", ".intercalate (displayItems params ++ [result.display]) ++ ">"
  | .typeLiteral => "Type"
def displayItems : List Ty → List String
  | [] => []
  | t :: ts => t.display :: displayItems ts
end

def itemIndex? (name : String) : Option Nat :=
  let cs := name.toList
  if ['I', 't', 'e', 'm'].isPrefixOf cs then
    match Digits.index? (cs.drop 4) with
    | some (n + 1) => some n
    | _ => none
  else none

def itemName (index : Nat) : String := "Item" ++ toString (index + 1)

/-- The type of a member: the first field of that name, or the item at that position. -/
def memberType? (t : Ty) (name : String) : Option Ty :=
  match t with
  | .entity _ _ fields => (fields.find? (·.1 == name)).map (·.2)
  | .tuple items => (itemIndex? name).bind (items[·]?)
  | _ => none

end RemoteQuery.Ty
