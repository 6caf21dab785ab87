import RemoteQuery.Text.Hex

/-!
# Percent-encoded option values

Letters, digits and `' . ~ - _ ) ( $` stand for themselves and a space becomes a plus sign. Every
other character is spelled by the bytes of its UTF-8 form, each as a percent sign and two upper-case
hexadecimal digits.
-/

namespace RemoteQuery.Percent

def passes (c : Char) : Bool :=
  c.isAlphanum || ['\'', '.', '~', '-', '_', ')', '(', '$'].contains c

def escapeByte (b : UInt8) : List Char := '%' :: (Hex.digits 2 b.toNat).map Char.toUpper

def encodeChar (c : Char) : List Char :=
  if passes c then [c]
  else if c = ' ' then ['+']
  else (String.utf8EncodeChar c).flatMap escapeByte

def encode (cs : List Char) : List Char := cs.flatMap encodeChar

@[simp] theorem encode_nil : encode [] = [] := rfl

end RemoteQuery.Percent

namespace RemoteQuery

def encodeOptionValue (s : String) : String := String.ofList (Percent.encode s.toList)

end RemoteQuery
