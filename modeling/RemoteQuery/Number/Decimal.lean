import RemoteQuery.Text.Digits

/-!
# Scaled decimals

A decimal is a sign and a natural number of at most 96 bits divided by a power of ten of at most 28.
The scale is part of the value, so `5.5` and `5.50` differ.

A text is read positionally or, when that fails, with an exponent. Fraction digits that do not fit
round the rest; a whole part that does not fit is refused. A zero that is written out has no sign,
and one that an exponent has rounded to keeps it.
-/

namespace RemoteQuery

def Decimal.mantissaLimit : Nat := 79228162514264337593543950336

def Decimal.maxScale : Nat := 28

structure Decimal where
  negative : Bool
  mantissa : Nat
  scale : Nat
  mantissa_lt : mantissa < Decimal.mantissaLimit := by decide
  scale_le : scale ≤ Decimal.maxScale := by decide
deriving DecidableEq

namespace Decimal

def text (d : Decimal) : List Char :=
  let cs := Digits.padded (d.scale + 1) d.mantissa
  let whole := cs.take (cs.length - d.scale)
  let fraction := cs.drop (cs.length - d.scale)
  (if d.negative then ['-'] else []) ++ whole ++
    if fraction = [] then [] else '.' :: fraction

def ofParts? (negative : Bool) (mantissa scale : Nat) : Option Decimal :=
  if h : mantissa < mantissaLimit ∧ scale ≤ maxScale then
    some ⟨negative, mantissa, scale, h.1, h.2⟩
  else none

/-- The mantissa and scale after the next digit has rounded them: five rounds away from zero. A
mantissa that then no longer fits gives up its last digit. -/
def round? (mantissa scale next : Nat) : Option (Nat × Nat) :=
  if next < 5 then some (mantissa, scale)
  else if mantissa + 1 < mantissaLimit then some (mantissa + 1, scale)
  else if scale = 0 then none
  else some ((mantissa + 5) / 10, scale - 1)

def scan (started : Bool) (mantissa : Nat) (scale : Option Nat) : List Char → Option (Nat × Nat)
  | [] => if started then some (mantissa, scale.getD 0) else none
  | c :: rest =>
    if c = '_' then if started then scan started mantissa scale rest else none
    else if c = '.' then if scale = none then scan started mantissa (some 0) rest else none
    else if c.isDigit then
      let digit := c.toNat - '0'.toNat
      let extended := 10 * mantissa + digit
      match scale with
      | none => if extended < mantissaLimit then scan true extended none rest else none
      | some s =>
        if s < maxScale ∧ extended < mantissaLimit then scan true extended (some (s + 1)) rest
        else round? mantissa s digit
    else none

def readPositional? (cs : List Char) : Option Decimal := do
  let (negative, digits) := match cs with
    | '-' :: rest => (true, rest)
    | '+' :: rest => (false, rest)
    | _ => (false, cs)
  let (mantissa, scale) ← scan false 0 none digits
  ofParts? (negative && mantissa != 0) mantissa scale

def shiftLeft? (d : Decimal) (e : Nat) : Option Decimal :=
  if e ≤ d.scale then ofParts? d.negative d.mantissa (d.scale - e)
  else if e ≤ maxScale then ofParts? d.negative (d.mantissa * Nat.pow 10 (e - d.scale)) 0
  else none

def dropDigits (n digits : Nat) : Nat :=
  (n + Nat.pow 10 digits / 2) / Nat.pow 10 digits

def shiftRight? (d : Decimal) (e : Nat) : Option Decimal :=
  if e ≤ maxScale then
    let excess := d.scale + e - maxScale
    ofParts? d.negative (dropDigits d.mantissa excess) (d.scale + e - excess)
  else none

def isExponentMark (c : Char) : Bool := c = 'e' || c = 'E'

def readScientific? (cs : List Char) : Option Decimal := do
  let d ← readPositional? (cs.takeWhile fun c => !isExponentMark c)
  match cs.dropWhile fun c => !isExponentMark c with
  | _ :: '-' :: exponent => d.shiftRight? (← Digits.index? exponent)
  | _ :: exponent => d.shiftLeft? (← Digits.index? exponent)
  | [] => none

def read? (cs : List Char) : Option Decimal := readPositional? cs <|> readScientific? cs

end Decimal
end RemoteQuery
