/-!
# JSON documents

A document is kept as it was written where that matters: the members of an object stand in order
and may repeat a name, and a number is its digits. An escape may stand for half a surrogate pair
alone, which is no character. A string with such an escape, or an object with such a name, is
garbled: it may stand in a document where nothing looks at it.
-/

namespace RemoteQuery

/-- The text of a number. No fraction digits and no exponent mean that the part is not written. -/
structure Json.Number where
  negative : Bool
  whole : List Char
  fraction : List Char
  exponent : Option Int
deriving DecidableEq

inductive Json where
  | null
  | bool (b : Bool)
  | number (n : Json.Number)
  | string (s : String)
  | array (items : List Json)
  | object (members : List (String × Json))
  /-- A string, or an object with a name, that does not spell characters. -/
  | garbled

namespace Json

instance : Inhabited Json := ⟨.null⟩

mutual
def depth : Json → Nat
  | .array items => depthOfItems items + 1
  | .object members => depthOfMembers members + 1
  | _ => 0
def depthOfItems : List Json → Nat
  | [] => 0
  | j :: js => max j.depth (depthOfItems js)
def depthOfMembers : List (String × Json) → Nat
  | [] => 0
  | (_, j) :: ms => max j.depth (depthOfMembers ms)
end

theorem depth_le_of_mem_items {j : Json} {items : List Json} (h : j ∈ items) :
    j.depth ≤ depthOfItems items := by
  induction items with
  | nil => simp at h
  | cons i items ih =>
    rcases List.mem_cons.1 h with rfl | h
    · rw [depthOfItems]
      exact Nat.le_max_left ..
    · rw [depthOfItems]
      exact Nat.le_trans (ih h) (Nat.le_max_right ..)

theorem depth_le_of_mem_members {name : String} {j : Json} {members : List (String × Json)}
    (h : (name, j) ∈ members) : j.depth ≤ depthOfMembers members := by
  induction members with
  | nil => simp at h
  | cons m members ih =>
    obtain ⟨n, i⟩ := m
    rcases List.mem_cons.1 h with h | h
    · obtain ⟨rfl, rfl⟩ := Prod.mk.injEq .. ▸ h
      rw [depthOfMembers]
      exact Nat.le_max_left ..
    · rw [depthOfMembers]
      exact Nat.le_trans (ih h) (Nat.le_max_right ..)

end Json
end RemoteQuery
