import RemoteQuery.Split.Placement

/-!
# Slots of a split

The values that the server sends stand in slots. A leaf is found by its wire text: leaves with the
same text share a slot, which keeps the term of the first.
-/

namespace RemoteQuery

/-- A value sent by the server: its wire text and the term that it stands for. -/
structure Slot where
  text : String
  term : Term

def rootText : String := "this"

abbrev Slots := List Slot

namespace Slots

def empty : Slots := []

def insert (slots : Slots) (slot : Slot) : Slots :=
  if slots.any (·.text == slot.text) then slots else slots ++ [slot]

def texts (slots : Slots) : List String := slots.map (·.text)

def indexOf (slots : Slots) (text : String) : Nat := slots.findIdx (·.text == text)

def tupleType (slots : Slots) : Ty := .tuple (slots.map (·.term.ty))

def isBareRoot (slots : Slots) : Bool := slots.texts == [rootText]

end Slots
end RemoteQuery
