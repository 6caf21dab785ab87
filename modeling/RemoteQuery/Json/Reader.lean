import RemoteQuery.Text.Digits
import RemoteQuery.Text.Hex
import RemoteQuery.Json.Basic

/-!
# Reading documents

A document is read from its text by recursive descent. Each reader takes the remaining characters
and returns what it read together with the rest. The first argument of the readers that call each
other is the number of steps they may take; the length of the text is always enough, since every
step takes a character away.

Strict grammar: no leading zeros, no trailing commas, no control characters inside strings, nothing
but blanks after the document. The escape of a lone surrogate is within the grammar, but makes its
string garbled.
-/

namespace RemoteQuery.Json

def isBlank (c : Char) : Bool := c = ' ' || c = '\n' || c = '\t' || c = '\r'

def skipBlanks (cs : List Char) : List Char := cs.dropWhile isBlank

def expect (word cs : List Char) : Option (List Char) :=
  if word.isPrefixOf cs then some (cs.drop word.length) else none

def readUnit (cs : List Char) : Option (Nat × List Char) :=
  if cs.length < 4 then none
  else (Hex.toNat? (cs.take 4)).map (·, cs.drop 4)

def isHighSurrogate (unit : Nat) : Bool := 0xD800 ≤ unit && unit < 0xDC00

def isLowSurrogate (unit : Nat) : Bool := 0xDC00 ≤ unit && unit < 0xE000

def readLowSurrogate (cs : List Char) : Option (Nat × List Char) := do
  let (unit, rest) ← readUnit (← expect ['\\', 'u'] cs)
  if isLowSurrogate unit then return (unit, rest) else none

/-- What an escape stands for, after its `u`: one unit, or two units that form a surrogate pair. A
lone surrogate stands for no character. -/
def readCodePoint (cs : List Char) : Option (Option Char × List Char) := do
  let (unit, rest) ← readUnit cs
  if isHighSurrogate unit then
    match readLowSurrogate rest with
    | some (low, rest) =>
      return (Char.ofNat (0x10000 + 0x400 * (unit - 0xD800) + (low - 0xDC00)), rest)
    | none => return (none, rest)
  else if isLowSurrogate unit then return (none, rest)
  else return (Char.ofNat unit, rest)

def shortEscape? (c : Char) : Option Char :=
  if c = '"' ∨ c = '\\' ∨ c = '/' then some c
  else if c = 'n' then some '\n'
  else if c = 'r' then some '\r'
  else if c = 't' then some '\t'
  else if c = 'b' then some (Char.ofNat 8)
  else if c = 'f' then some (Char.ofNat 12)
  else none

def readChars : Nat → List Char → Option (List (Option Char) × List Char)
  | 0, _ => none
  | steps + 1, cs => match cs with
    | [] => none
    | '"' :: rest => some ([], rest)
    | '\\' :: 'u' :: rest => do
      let (c, rest) ← readCodePoint rest
      let (s, rest) ← readChars steps rest
      return (c :: s, rest)
    | '\\' :: e :: rest => do
      let c ← shortEscape? e
      let (s, rest) ← readChars steps rest
      return (some c :: s, rest)
    | c :: rest =>
      if c.toNat < 32 ∨ c = '\\' then none
      else do
        let (s, rest) ← readChars steps rest
        return (some c :: s, rest)

def readString (cs : List Char) : Option (Option String × List Char) := do
  let (s, rest) ← readChars (cs.length + 1) cs
  return ((s.mapM id).map String.ofList, rest)

def readDigits (cs : List Char) : List Char × List Char :=
  (cs.takeWhile Char.isDigit, cs.dropWhile Char.isDigit)

def readFraction : List Char → Option (List Char × List Char)
  | '.' :: rest =>
    let (digits, rest) := readDigits rest
    if digits = [] then none else some (digits, rest)
  | cs => some ([], cs)

def readExponent : List Char → Option (Option Int × List Char)
  | c :: rest =>
    if c = 'e' ∨ c = 'E' then
      let (negative, rest) := match rest with
        | '-' :: rest => (true, rest)
        | '+' :: rest => (false, rest)
        | rest => (false, rest)
      let (digits, rest) := readDigits rest
      match Digits.toNat? digits with
      | none => none
      | some n => some (some (if negative then -n else n), rest)
    else some (none, c :: rest)
  | [] => some (none, [])

def readNumber (cs : List Char) : Option (Number × List Char) := do
  let (negative, rest) := match cs with
    | '-' :: rest => (true, rest)
    | _ => (false, cs)
  let (whole, rest) := readDigits rest
  if whole = [] ∨ (whole.head? = some '0' ∧ whole ≠ ['0']) then none
  else
    let (fraction, rest) ← readFraction rest
    let (exponent, rest) ← readExponent rest
    return (⟨negative, whole, fraction, exponent⟩, rest)

def ofMembers (members : List (Option String × Json)) : Json :=
  match members.mapM fun m => m.1.map (·, m.2) with
  | some members => .object members
  | none => .garbled

mutual
def readValue : Nat → List Char → Option (Json × List Char)
  | 0, _ => none
  | steps + 1, cs => match cs with
    | [] => none
    | '"' :: rest => do
      let (s, rest) ← readString rest
      return ((s.map string).getD .garbled, rest)
    | '[' :: rest => match skipBlanks rest with
      | ']' :: rest => some (.array [], rest)
      | rest => do
        let (items, rest) ← readItems steps rest
        return (.array items, rest)
    | '\x7b' :: rest => match skipBlanks rest with
      | '\x7d' :: rest => some (.object [], rest)
      | rest => do
        let (members, rest) ← readMembers steps rest
        return (ofMembers members, rest)
    | 'n' :: _ => (expect ['n', 'u', 'l', 'l'] cs).map (.null, ·)
    | 't' :: _ => (expect ['t', 'r', 'u', 'e'] cs).map (.bool true, ·)
    | 'f' :: _ => (expect ['f', 'a', 'l', 's', 'e'] cs).map (.bool false, ·)
    | _ => do
      let (n, rest) ← readNumber cs
      return (.number n, rest)
def readItems : Nat → List Char → Option (List Json × List Char)
  | 0, _ => none
  | steps + 1, cs => do
    let (item, rest) ← readValue steps cs
    match skipBlanks rest with
    | ']' :: rest => return ([item], rest)
    | ',' :: rest =>
      let (items, rest) ← readItems steps (skipBlanks rest)
      return (item :: items, rest)
    | _ => none
def readMembers : Nat → List Char → Option (List (Option String × Json) × List Char)
  | 0, _ => none
  | steps + 1, cs => do
    let rest ← expect ['"'] cs
    let (name, rest) ← readString rest
    let rest ← expect [':'] (skipBlanks rest)
    let (item, rest) ← readValue steps (skipBlanks rest)
    match skipBlanks rest with
    | '\x7d' :: rest => return ([(name, item)], rest)
    | ',' :: rest =>
      let (members, rest) ← readMembers steps (skipBlanks rest)
      return ((name, item) :: members, rest)
    | _ => none
end

def read? (s : String) : Option Json :=
  let cs := skipBlanks s.toList
  match readValue (cs.length + 1) cs with
  | some (j, rest) => if skipBlanks rest = [] then some j else none
  | none => none

end RemoteQuery.Json
