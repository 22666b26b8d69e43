/-
# Quoted texts

A text between double quotes, or a character between single ones, on one line and made of
visible characters of the alphabet only: the quote and the backslash get a backslash, the usual controls
their letter, and any other invisible character its code in hexadecimal.
-/

import Generics.Text.Alphabet

namespace Generics.Text

variable [Alphabet]

/-- A number in at least the given count of lower-case hexadecimal digits. -/
def hexPadded (digits n : Nat) : List Char := (Nat.toDigits 16 n).leftpad digits '0'

/-- The escape of a control that has a letter of its own. -/
def controlLetter? (c : Char) : Option Char :=
  match c.toNat with
  | 0x07 => some 'a'
  | 0x08 => some 'b'
  | 0x09 => some 't'
  | 0x0A => some 'n'
  | 0x0B => some 'v'
  | 0x0C => some 'f'
  | 0x0D => some 'r'
  | _ => none

/-- One character inside the given quotes. -/
def quoteChar (quote c : Char) : List Char :=
  if c == quote || c == '\\' then ['\\', c]
  else if isVisible c then [c]
  else match controlLetter? c with
    | some letter => ['\\', letter]
    | none =>
      if c.toNat < 0x20 || c.toNat == 0x7F then '\\' :: 'x' :: hexPadded 2 c.toNat
      else if c.toNat < 0x10000 then '\\' :: 'u' :: hexPadded 4 c.toNat
      else '\\' :: 'U' :: hexPadded 8 c.toNat

/-- A text between double quotes. -/
def quoted (s : String) : String :=
  String.ofList ('"' :: s.toList.flatMap (quoteChar '"') ++ ['"'])

/-- The single quote. -/
def singleQuote : Char := Char.ofNat 0x27

/-- A character between single quotes. -/
def quotedChar (c : Char) : String :=
  String.ofList (singleQuote :: quoteChar singleQuote c ++ [singleQuote])

end Generics.Text
