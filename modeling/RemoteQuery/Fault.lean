import RemoteQuery.Signature
import RemoteQuery.Template

/-!
# Faults

Why a term has no wire text. Several causes are reported together as one fault; a single cause
stands for itself.
-/

namespace RemoteQuery

inductive Fault where
  | unsupported (node reason : String)
  | unmapped (signature : Signature)
  | malformed (place reason : String)
  | template (fault : Template.Fault)
  | several (causes : List Fault)

namespace Fault

def message : Fault → String
  | .unsupported node reason => "Unsupported " ++ node ++ " node: " ++ reason
  | .unmapped signature => "No function mapping for member '" ++ signature.text ++ "'"
  | .malformed place reason => "Malformed literal in " ++ place ++ ": " ++ reason
  | .template fault => "Mapping template error: " ++ fault.message
  | .several causes =>
    toString causes.length ++ " unsupported sub-expressions: " ++
      "; ".intercalate (causes.map fun c => c.message)

def ofCauses : List Fault → Fault
  | [cause] => cause
  | causes => .several causes

def causes : Fault → List Fault
  | .several causes => causes
  | f => [f]

def causeCount (f : Fault) : Nat := f.causes.length

mutual
def same : Fault → Fault → Bool
  | .unsupported node reason, .unsupported node' reason' => node == node' && reason == reason'
  | .unmapped signature, .unmapped signature' => signature == signature'
  | .malformed place reason, .malformed place' reason' => place == place' && reason == reason'
  | .template fault, .template fault' => fault == fault'
  | .several causes, .several causes' => sameCauses causes causes'
  | _, _ => false
def sameCauses : List Fault → List Fault → Bool
  | [], [] => true
  | f :: fs, g :: gs => same f g && sameCauses fs gs
  | _, _ => false
end

mutual
theorem same_iff : ∀ {f g : Fault}, same f g = true ↔ f = g
  | .several _, g => by cases g <;> simp [same, sameCauses_iff]
  | .unsupported .., g | .unmapped _, g | .malformed .., g | .template _, g => by
    cases g <;> simp [same]
theorem sameCauses_iff : ∀ {fs gs : List Fault}, sameCauses fs gs = true ↔ fs = gs
  | [], gs => by cases gs <;> simp [sameCauses]
  | _ :: _, gs => by cases gs <;> simp [sameCauses, same_iff, sameCauses_iff]
end

instance : DecidableEq Fault := fun _ _ => decidable_of_iff _ same_iff

end Fault

instance {α : Type} [DecidableEq α] : DecidableEq (Except Fault α)
  | .ok a, .ok b => decidable_of_iff (a = b) (by simp)
  | .error f, .error g => decidable_of_iff (f = g) (by simp)
  | .ok _, .error _ | .error _, .ok _ => isFalse nofun

end RemoteQuery
