import RemoteQuery.Text.Digits
import RemoteQuery.Text.Percent

/-!
# Query options

The options of one request stand in a fixed order and are joined by ampersands, each as its name,
an equals sign and its encoded value. An option that is set to the empty text is not the same as
one that is not set.
-/

namespace RemoteQuery

structure QueryOptions where
  filter : Option String
  select : Option String
  orderBy : Option String
  top : Option UInt64
  skip : Option UInt64
deriving DecidableEq

namespace QueryOptions

def empty : QueryOptions := ⟨none, none, none, none, none⟩

def countText (n : UInt64) : String := String.ofList (Digits.ofNat n.toNat)

def pairs (o : QueryOptions) : List (String × String) :=
  (o.filter.map fun v => ("$filter", encodeOptionValue v)).toList ++
  (o.select.map fun v => ("$select", encodeOptionValue v)).toList ++
  (o.orderBy.map fun v => ("$orderby", encodeOptionValue v)).toList ++
  (o.top.map fun n => ("$top", countText n)).toList ++
  (o.skip.map fun n => ("$skip", countText n)).toList

def isEmpty (o : QueryOptions) : Bool := o.pairs.isEmpty

def text (o : QueryOptions) : String :=
  "&".intercalate (o.pairs.map fun p => p.1 ++ "=" ++ p.2)

end QueryOptions
end RemoteQuery
