/-!
# Enclosing parentheses

One pair of enclosing parentheses is dropped when the first parenthesis stays open up to the last
character. The scan counts nesting, which never falls below zero, and passes over everything
between single quotes.
-/

namespace RemoteQuery.Brackets

/-- Whether no closing parenthesis before the last character brings the nesting back to zero. The
first argument says whether the scan stands between quotes, the second is the nesting. -/
def staysOpen : Bool → Nat → List Char → Bool
  | _, _, [] => true
  | quoted, depth, c :: rest =>
    if c = '\'' then staysOpen (!quoted) depth rest
    else if quoted then staysOpen true depth rest
    else if c = '(' then staysOpen false (depth + 1) rest
    else if c = ')' then
      (depth - 1 != 0 || rest.isEmpty) && staysOpen false (depth - 1) rest
    else staysOpen false depth rest

def enclosed (cs : List Char) : Bool :=
  match cs with
  | '(' :: rest => rest.getLast? == some ')' && staysOpen false 0 cs
  | _ => false

def strip (cs : List Char) : List Char :=
  if enclosed cs then cs.tail.dropLast else cs

end RemoteQuery.Brackets

namespace RemoteQuery

def stripOuterParens (s : String) : String := String.ofList (Brackets.strip s.toList)

end RemoteQuery
