/-
# Alphabets

Which characters identifiers are made of, and which ones a quoted text shows as they are, is not settled
here: whatever reads or quotes texts does so over an `Alphabet`, and what is said of it holds over each. An
identifier is an underscore or an opening character, followed by any number of characters that go on with it.

The tables of Unicode are an alphabet (`Generics.Text.Unicode`), and so are the letters and digits of ASCII
alone (`Alphabet.ascii`).
-/

namespace Generics

/-- The classes of characters that are given from elsewhere. -/
class Alphabet where
  /-- Whether a character may open an identifier. -/
  opens : Char → Bool
  /-- Whether a character may follow inside an identifier. -/
  continues : Char → Bool
  /-- Whether a quoted text shows a character as it is. -/
  shows : Char → Bool

/-- The letters and digits of ASCII and the underscore, where the visible characters of ASCII are shown. -/
@[reducible] def Alphabet.ascii : Alphabet where
  opens c := c.isAlpha
  continues c := c.isAlphanum || c == '_'
  shows c := 0x20 ≤ c.toNat && c.toNat ≤ 0x7E

namespace Text

variable [Alphabet]

/-- Whether a character may open an identifier: the underscore may in any alphabet. -/
def opensIdentifier (c : Char) : Bool := c == '_' || Alphabet.opens c

/-- Whether a character may follow inside an identifier. -/
def extendsIdentifier (c : Char) : Bool := Alphabet.continues c

/-- Whether a character is shown as it is. -/
def isVisible (c : Char) : Bool := Alphabet.shows c

end Text

end Generics
