import RemoteQuery.Text.Quoted
import RemoteQuery.Number.Shortest
import RemoteQuery.Ty.Names
import RemoteQuery.Literal.Basic

/-!
# Texts of literals

Every literal has a wire form. A suffix or a leading word tells the kinds apart: `m` ends a
decimal, `f` a single-precision float, a double always has a point, and `datetime`, `guid` and `t`
stand before quoted texts. Date-times are written down to 100 nanoseconds.
-/

namespace RemoteQuery

namespace Double

def text (d : Double) : List Char :=
  match d.classify with
  | .nan => ['N', 'a', 'N']
  | .infinite negative => (if negative then ['-'] else []) ++ ['I', 'N', 'F']
  | .finite negative s e =>
    let cs := Shortest.text .double s e
    (if negative then ['-'] else []) ++ cs ++ if cs.contains '.' then [] else ['.', '0']

end Double

namespace Single

def text (s : Single) : List Char :=
  match s.classify with
  | .nan => ['N', 'a', 'N', 'f']
  | .infinite negative => (if negative then ['-'] else []) ++ ['I', 'N', 'F', 'f']
  | .finite negative m e => (if negative then ['-'] else []) ++ Shortest.text .single m e ++ ['f']

end Single

/-- An offset is written with its sign, hours and minutes; odd seconds are dropped. -/
def Zone.text : Zone → List Char
  | .unspecified => []
  | .utc => ['Z']
  | .offset seconds =>
    let minutes := seconds.toInt.natAbs / 60
    (if seconds < 0 then '-' else '+') ::
      (Digits.padded 2 (minutes / 60) ++ ':' :: Digits.padded 2 (minutes % 60))

namespace DateTime

def tickText (t : DateTime) : List Char :=
  let ticks := t.nanosecond / 100
  if ticks = 0 then [] else '.' :: Digits.padded 7 ticks

def wireText (t : DateTime) (zone : Zone) : List Char :=
  t.secondsText ++ t.tickText ++ zone.text

end DateTime

def Ty.literalText (t : Ty) : String := "t" ++ quote t.wireName

namespace Literal

mutual
def text : Literal → String
  | .null => "null"
  | .bool b => if b then "true" else "false"
  | .int i => String.ofList (Digits.ofInt i.toInt)
  | .single s => String.ofList s.text
  | .double d => String.ofList d.text
  | .decimal d => String.ofList d.text ++ "m"
  | .string s => quote s
  | .char c => quote (String.ofList [c])
  | .dateTime t zone => "datetime'" ++ String.ofList (t.wireText zone) ++ "'"
  | .guid g => "guid'" ++ String.ofList g.text ++ "'"
  | .enum e raw => quote (e.format raw)
  | .type t => t.literalText
  | .sequence items => "[" ++ ",".intercalate (texts items) ++ "]"
def texts : List Literal → List String
  | [] => []
  | l :: ls => l.text :: texts ls
end

theorem texts_eq_map (ls : List Literal) : texts ls = ls.map text := by
  induction ls with
  | nil => rfl
  | cons l ls ih => simp [texts, ih]

end Literal
end RemoteQuery
