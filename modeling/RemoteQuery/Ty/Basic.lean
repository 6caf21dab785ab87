/-!
# Static types

The types of terms are plain values: enumerations and entities carry their definitions, and two
types are equal when they describe the same shape. Equality of types is decided by structural
recursion.
-/

namespace RemoteQuery

inductive Scalar where
  | boolean
  | byte
  | int16
  | int32
  | int64
  | single
  | double
  | decimal
  | string
  | char
  | dateTime
  | guid
  | object
deriving DecidableEq

namespace Scalar

def all : List Scalar :=
  [boolean, byte, int16, int32, int64, single, double, decimal, string, char, dateTime, guid,
    object]

def name : Scalar → String
  | boolean => "Boolean"
  | byte => "Byte"
  | int16 => "Int16"
  | int32 => "Int32"
  | int64 => "Int64"
  | single => "Single"
  | double => "Double"
  | decimal => "Decimal"
  | string => "String"
  | char => "Char"
  | dateTime => "DateTime"
  | guid => "Guid"
  | object => "Object"

def ofName? (s : String) : Option Scalar := all.find? (·.name == s)

theorem ofName?_name (s : Scalar) : ofName? s.name = some s := by cases s <;> decide

def isIntegral : Scalar → Bool
  | byte | int16 | int32 | int64 => true
  | _ => false

end Scalar

structure Enumeration where
  name : String
  underlying : Scalar
  members : List (String × Int64)
  isFlags : Bool
deriving DecidableEq

/-- A static type. A sequence is held in memory, a query is composed remotely; a tuple has the
members `Item1`, `Item2` and so on; `typeLiteral` is the type of a constant that denotes a type.
-/
inductive Ty where
  | scalar (s : Scalar)
  | nullable (inner : Ty)
  | enum (e : Enumeration)
  | entity (name : String) (externalName : Option String) (fields : List (String × Ty))
  | sequence (element : Ty)
  | query (element : Ty)
  | dictionary (key value : Ty)
  | tuple (items : List Ty)
  | function (params : List Ty) (result : Ty)
  | typeLiteral

namespace Ty

instance : Inhabited Ty := ⟨.typeLiteral⟩

mutual
def same : Ty → Ty → Bool
  | .scalar s, .scalar t => s = t
  | .nullable a, .nullable b => same a b
  | .enum e, .enum f => e = f
  | .entity n x fs, .entity m y gs => n = m && x = y && sameFields fs gs
  | .sequence a, .sequence b => same a b
  | .query a, .query b => same a b
  | .dictionary k a, .dictionary l b => same k l && same a b
  | .tuple as, .tuple bs => sameItems as bs
  | .function as a, .function bs b => sameItems as bs && same a b
  | .typeLiteral, .typeLiteral => true
  | _, _ => false
def sameItems : List Ty → List Ty → Bool
  | [], [] => true
  | a :: as, b :: bs => same a b && sameItems as bs
  | _, _ => false
def sameFields : List (String × Ty) → List (String × Ty) → Bool
  | [], [] => true
  | (n, a) :: as, (m, b) :: bs => n = m && same a b && sameFields as bs
  | _, _ => false
end

mutual
theorem same_self : ∀ a : Ty, same a a = true
  | .scalar _ | .enum _ | .typeLiteral => by simp [same]
  | .nullable a | .sequence a | .query a => by simp [same, same_self a]
  | .entity _ _ fs => by simp [same, sameFields_self fs]
  | .dictionary k a => by simp [same, same_self k, same_self a]
  | .tuple as => by simp [same, sameItems_self as]
  | .function as a => by simp [same, sameItems_self as, same_self a]
theorem sameItems_self : ∀ as : List Ty, sameItems as as = true
  | [] => rfl
  | a :: as => by simp [sameItems, same_self a, sameItems_self as]
theorem sameFields_self : ∀ as : List (String × Ty), sameFields as as = true
  | [] => rfl
  | (_, a) :: as => by simp [sameFields, same_self a, sameFields_self as]
end

mutual
theorem eq_of_same : ∀ {a b : Ty}, same a b = true → a = b
  | .scalar _, b, h => by cases b <;> simp_all [same]
  | .enum _, b, h => by cases b <;> simp_all [same]
  | .typeLiteral, b, h => by cases b <;> simp_all [same]
  | .nullable _, b, h => by cases b <;> simp [same] at h ⊢; exact eq_of_same h
  | .sequence _, b, h => by cases b <;> simp [same] at h ⊢; exact eq_of_same h
  | .query _, b, h => by cases b <;> simp [same] at h ⊢; exact eq_of_same h
  | .entity .., b, h => by
    cases b <;> simp [same] at h ⊢
    exact ⟨h.1.1, h.1.2, eq_of_sameFields h.2⟩
  | .dictionary .., b, h => by
    cases b <;> simp [same] at h ⊢
    exact ⟨eq_of_same h.1, eq_of_same h.2⟩
  | .tuple _, b, h => by cases b <;> simp [same] at h ⊢; exact eq_of_sameItems h
  | .function .., b, h => by
    cases b <;> simp [same] at h ⊢
    exact ⟨eq_of_sameItems h.1, eq_of_same h.2⟩
theorem eq_of_sameItems : ∀ {as bs : List Ty}, sameItems as bs = true → as = bs
  | [], [], _ => rfl
  | _ :: _, _ :: _, h => by
    simp [sameItems] at h ⊢
    exact ⟨eq_of_same h.1, eq_of_sameItems h.2⟩
  | [], _ :: _, h | _ :: _, [], h => by simp [sameItems] at h
theorem eq_of_sameFields :
    ∀ {as bs : List (String × Ty)}, sameFields as bs = true → as = bs
  | [], [], _ => rfl
  | (_, _) :: _, (_, _) :: _, h => by
    simp [sameFields] at h ⊢
    exact ⟨⟨h.1.1, eq_of_same h.1.2⟩, eq_of_sameFields h.2⟩
  | [], _ :: _, h | _ :: _, [], h => by simp [sameFields] at h
end

instance : DecidableEq Ty := fun a b =>
  decidable_of_iff (same a b = true) ⟨eq_of_same, fun h => h ▸ same_self a⟩

abbrev boolean : Ty := .scalar .boolean

abbrev object : Ty := .scalar .object

def nonNullable : Ty → Ty
  | .nullable inner => inner
  | t => t

def enum? : Ty → Option Enumeration
  | .enum e => some e
  | _ => none

def underlyingEnum? (t : Ty) : Option Enumeration := t.nonNullable.enum?

def scalar? : Ty → Option Scalar
  | .scalar s => some s
  | _ => none

def isIntegral (t : Ty) : Bool := t.scalar?.any Scalar.isIntegral

def isSequence : Ty → Bool
  | .sequence _ | .query _ => true
  | _ => false

def isDictionary : Ty → Bool
  | .dictionary .. => true
  | _ => false

end Ty
end RemoteQuery
