/-
# Bytes written in 64 characters

Four characters stand for three bytes. The last four may end with one or two equals signs, which
stand for bytes left out. Ends of lines between the characters do not count.
-/

namespace Generics.Text.Base64

/-- The six bits of a character. -/
def bits? (c : Char) : Option Nat :=
  if 'A' ≤ c && c ≤ 'Z' then some (c.toNat - 'A'.toNat)
  else if 'a' ≤ c && c ≤ 'z' then some (c.toNat - 'a'.toNat + 26)
  else if c.isDigit then some (c.toNat - '0'.toNat + 52)
  else if c == '+' then some 62
  else if c == '/' then some 63
  else none

/-- The first so many of the three bytes of a number of 24 bits. -/
def bytesOf (n count : Nat) : List UInt8 :=
  [n / 0x10000, n / 0x100, n].take count |>.map UInt8.ofNat

/-- The bytes of characters, after those read so far, last first. -/
def decodeFrom (bytes : List UInt8) : List Char → Option (List UInt8)
  | [] => some bytes.reverse
  | a :: b :: c :: d :: cs =>
    match bits? a, bits? b, bits? c, bits? d with
    | some w, some x, some y, some z =>
      decodeFrom ((bytesOf (((w * 64 + x) * 64 + y) * 64 + z) 3).reverse ++ bytes) cs
    | some w, some x, some y, none =>
      if d == '=' && cs.isEmpty then
        some (bytes.reverse ++ bytesOf (((w * 64 + x) * 64 + y) * 64) 2)
      else none
    | some w, some x, none, none =>
      if c == '=' && d == '=' && cs.isEmpty then
        some (bytes.reverse ++ bytesOf ((w * 64 + x) * 0x1000) 1)
      else none
    | _, _, _, _ => none
  | _ => none

/-- The bytes that characters stand for. -/
def decode? (cs : List Char) : Option (List UInt8) :=
  decodeFrom [] (cs.filter fun c => c != '\n' && c != '\r')

end Generics.Text.Base64
