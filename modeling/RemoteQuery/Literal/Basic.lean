import RemoteQuery.Number.Binary
import RemoteQuery.Number.Decimal
import RemoteQuery.Guid
import RemoteQuery.Calendar
import RemoteQuery.Ty.Enumeration

/-!
# Literals

The constant values of terms. A literal that comes without a type has a natural one; a sequence
takes the natural type of its first item.
-/

namespace RemoteQuery

/-- How a date-time relates to universal time; an offset counts seconds to the east. -/
inductive Zone where
  | unspecified
  | utc
  | offset (seconds : Int32)
deriving DecidableEq

inductive Literal where
  | null
  | bool (b : Bool)
  | int (i : Int64)
  | single (s : Single)
  | double (d : Double)
  | decimal (d : Decimal)
  | string (s : String)
  | char (c : Char)
  | dateTime (t : DateTime) (zone : Zone)
  | guid (g : Guid)
  | enum (e : Enumeration) (raw : Int64)
  | type (t : Ty)
  | sequence (items : List Literal)

namespace Literal

instance : Inhabited Literal := ⟨.null⟩

def isNull : Literal → Bool
  | .null => true
  | _ => false

def string? : Literal → Option String
  | .string s => some s
  | _ => none

def ofSymbol? (e : Enumeration) (symbol : String) : Option Literal :=
  (e.valueOf? symbol).map (.enum e)

def naturalType : Literal → Ty
  | .null => .object
  | .bool _ => .boolean
  | .int _ => .scalar .int32
  | .single _ => .scalar .single
  | .double _ => .scalar .double
  | .decimal _ => .scalar .decimal
  | .string _ => .scalar .string
  | .char _ => .scalar .char
  | .dateTime .. => .scalar .dateTime
  | .guid _ => .scalar .guid
  | .enum e _ => .enum e
  | .type _ => .typeLiteral
  | .sequence [] => .sequence .object
  | .sequence (item :: _) => .sequence item.naturalType

end Literal
end RemoteQuery
