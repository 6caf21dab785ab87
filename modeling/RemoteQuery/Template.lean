import RemoteQuery.Text.Digits

/-!
# Call templates

A template is text with placeholders: an index in braces stands for an argument, and a doubled
brace for itself. A lone closing brace is text as well. The template is cut into segments first; a
placeholder that is not closed or does not hold an index ends the segments. Filling goes from left
to right, so the first fault is the one reported.
-/

namespace RemoteQuery

namespace Template

inductive Segment where
  | text (c : Char)
  | argument (index : Nat)
  | broken (position : Nat)
deriving DecidableEq

/-- Why a template could not be filled. Positions count the bytes of the UTF-8 form. -/
inductive Fault where
  | missingArgument (template : String) (index available : Nat)
  | unterminated (template : String) (position : Nat)
deriving DecidableEq

def Fault.message : Fault → String
  | .missingArgument template index available =>
    "Template '" ++ template ++ "' references argument \x7b" ++ toString index ++
      "\x7d but only " ++ toString available ++ " were supplied"
  | .unterminated template position =>
    "Template '" ++ template ++ "' has an unterminated placeholder at byte " ++ toString position

def placeholder? (cs : List Char) : Option (Nat × List Char) :=
  match cs.dropWhile (· != '\x7d') with
  | _ :: rest => (Digits.index? (cs.takeWhile (· != '\x7d'))).map (·, rest)
  | [] => none

theorem length_lt_of_placeholder? {cs rest : List Char} {index : Nat}
    (h : placeholder? cs = some (index, rest)) : rest.length < cs.length := by
  have hd : (cs.dropWhile (· != '\x7d')).length ≤ cs.length :=
    (List.dropWhile_suffix _).length_le
  unfold placeholder? at h
  split at h
  · rename_i heq
    rw [heq] at hd
    simp only [Option.map_eq_some_iff, Prod.mk.injEq] at h
    obtain ⟨_, _, _, rfl⟩ := h
    simp only [List.length_cons] at hd
    omega
  · simp at h

def utf8Length : List Char → Nat
  | [] => 0
  | c :: cs => c.utf8Size + utf8Length cs

def segmentsFrom (position : Nat) : List Char → List Segment
  | [] => []
  | '\x7b' :: '\x7b' :: rest => .text '\x7b' :: segmentsFrom (position + 2) rest
  | '\x7d' :: '\x7d' :: rest => .text '\x7d' :: segmentsFrom (position + 2) rest
  | '\x7b' :: cs =>
    match h : placeholder? cs with
    | some (index, rest) =>
      have := length_lt_of_placeholder? h
      .argument index :: segmentsFrom (position + utf8Length ('\x7b' :: cs) - utf8Length rest) rest
    | none => [.broken position]
  | c :: rest => .text c :: segmentsFrom (position + c.utf8Size) rest
termination_by cs => cs.length

def segments (template : String) : List Segment := segmentsFrom 0 template.toList

def fillSegments (template : String) (args : List String) :
    List Segment → Except Fault (List Char)
  | [] => .ok []
  | .text c :: rest => (fillSegments template args rest).map (c :: ·)
  | .argument index :: rest =>
    match args[index]? with
    | none => .error (.missingArgument template index args.length)
    | some arg => (fillSegments template args rest).map (arg.toList ++ ·)
  | .broken position :: _ => .error (.unterminated template position)

def fill (template : String) (args : List String) : Except Fault String :=
  (fillSegments template args (segments template)).map String.ofList

end Template
end RemoteQuery
