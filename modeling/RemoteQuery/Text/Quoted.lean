/-!
# Quoted text

A text is quoted by standing between single quotes with every inner quote written twice, so that
the closing quote is the first one that is not doubled.
-/

namespace RemoteQuery.Quoted

def body (cs : List Char) : List Char :=
  cs.flatMap fun c => if c = '\'' then ['\'', '\''] else [c]

def chars (cs : List Char) : List Char := '\'' :: (body cs ++ ['\''])

@[simp] theorem body_nil : body [] = [] := rfl

@[simp] theorem body_quote (cs : List Char) : body ('\'' :: cs) = '\'' :: '\'' :: body cs := rfl

theorem body_cons_of_ne {c : Char} (h : c ≠ '\'') (cs : List Char) :
    body (c :: cs) = c :: body cs := by
  simp [body, h]

theorem body_of_not_mem {cs : List Char} (h : '\'' ∉ cs) : body cs = cs := by
  induction cs with
  | nil => rfl
  | cons c cs ih =>
    rw [body_cons_of_ne (List.ne_of_not_mem_cons h).symm, ih (List.not_mem_of_not_mem_cons h)]

end RemoteQuery.Quoted

namespace RemoteQuery

def quote (s : String) : String := String.ofList (Quoted.chars s.toList)

end RemoteQuery
