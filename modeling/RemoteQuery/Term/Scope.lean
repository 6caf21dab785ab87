import RemoteQuery.Text.Digits
import RemoteQuery.Term.Basic

/-!
# Names in terms

A lambda binds its parameters in its body and hides outer ones of the same name. Substitution
replaces the free occurrences of a name; it does not rename, so a name free in the replacement may
be bound where it lands. A fresh name is `t`, or the first of `t0`, `t1` and so on, that occurs
nowhere.
-/

namespace RemoteQuery.Term

def binds (params : List Param) (name : String) : Bool := params.any (·.name == name)

def mentions (name : String) (t : Term) : Bool :=
  match t with
  | .param p => p.name == name
  | .lambda params body => !binds params name && mentions name body
  | t => t.children.attach.any fun c => mentions name c.1
termination_by sizeOf t
decreasing_by
  · rw [lambda.sizeOf_spec]; omega
  · exact sizeOf_lt_of_mem_children c.2

@[simp] theorem mentions_param (name : String) (p : Param) :
    (param p).mentions name = (p.name == name) := by
  rw [mentions]

@[simp] theorem mentions_lambda (name : String) (params : List Param) (body : Term) :
    (lambda params body).mentions name = (!binds params name && body.mentions name) := by
  rw [mentions]

theorem mentions_of_children (name : String) {t : Term} (hp : ∀ p, t ≠ .param p)
    (hl : ∀ params body, t ≠ .lambda params body) :
    t.mentions name = t.children.any (mentions name) := by
  rw [mentions]
  · simp
  · simpa using hp
  · simpa using hl

def replace (t : Term) (name : String) (r : Term) : Term :=
  match t with
  | .param p => if p.name == name then r else .param p
  | .lambda params body =>
    if binds params name then .lambda params body else .lambda params (body.replace name r)
  | t => t.withChildren (t.children.attach.map fun c => c.1.replace name r)
termination_by sizeOf t
decreasing_by
  · rw [lambda.sizeOf_spec]; omega
  · exact sizeOf_lt_of_mem_children c.2

@[simp] theorem replace_param (p : Param) (name : String) (r : Term) :
    (param p).replace name r = if p.name == name then r else .param p := by
  rw [replace]

@[simp] theorem replace_lambda (params : List Param) (body : Term) (name : String) (r : Term) :
    (lambda params body).replace name r =
      if binds params name then .lambda params body else .lambda params (body.replace name r) := by
  rw [replace]

theorem replace_of_children {t : Term} (hp : ∀ p, t ≠ .param p)
    (hl : ∀ params body, t ≠ .lambda params body) (name : String) (r : Term) :
    t.replace name r = t.withChildren (t.children.map fun c => c.replace name r) := by
  rw [replace]
  · simp
  · simpa using hp
  · simpa using hl

def ownNames : Term → List String
  | .param p => [p.name]
  | .lambda params _ => params.map (·.name)
  | _ => []

def names (t : Term) : List String :=
  t.ownNames ++ t.children.attach.flatMap fun c => names c.1
termination_by sizeOf t
decreasing_by exact sizeOf_lt_of_mem_children c.2

theorem names_eq (t : Term) : t.names = t.ownNames ++ t.children.flatMap names := by
  rw [names]; simp

def sortedNames (t : Term) : List String := (t.names.mergeSort (· ≤ ·)).eraseReps

def freshNumbered (taken : List String) (index : Nat) : String :=
  let candidate := "t" ++ toString index
  if candidate ∈ taken then freshNumbered (taken.erase candidate) (index + 1) else candidate
termination_by taken.length
decreasing_by
  rename_i h
  rw [List.length_erase_of_mem h]
  have := List.length_pos_of_mem h
  omega

def freshName (t : Term) : String :=
  if "t" ∈ t.names then freshNumbered t.names 0 else "t"

end RemoteQuery.Term
