/-
# Tokens of type expressions

A type expression is cut into identifiers, over some alphabet, and ten punctuation characters,
separated by blanks. Any other character is a token of its own that no expression can use. The end of the
input is a token too, and asking again past the end answers it again.

A token keeps the glyphs it was read from, so that tokens and the blanks between them make up
the input again.
-/

import Generics.Text.Alphabet
import Generics.Text.Blank
import Generics.Text.Glyph
import Generics.Text.Quoted

namespace Generics.Expr

open Generics.Text

/-- The kinds of tokens. -/
inductive Kind
  | finish
  | illegal
  | ident
  | less
  | greater
  | comma
  | period
  | question
  | and
  | leftBracket
  | rightBracket
  | leftParen
  | rightParen
deriving DecidableEq, Repr

namespace Kind

/-- All kinds, in the order of their numbers. -/
def all : List Kind :=
  [ .finish, .illegal, .ident, .less, .greater, .comma, .period, .question, .and,
    .leftBracket, .rightBracket, .leftParen, .rightParen ]

/-- The number of a kind. -/
def index (k : Kind) : Nat := all.idxOf k

/-- The kind in words. -/
def name : Kind → String
  | .finish => "end of input"
  | .illegal => "illegal character"
  | .ident => "identifier"
  | .less => "'<'"
  | .greater => "'>'"
  | .comma => "','"
  | .period => "'.'"
  | .question => "'?'"
  | .and => "'&'"
  | .leftBracket => "'['"
  | .rightBracket => "']'"
  | .leftParen => "'('"
  | .rightParen => "')'"

/-- The name of a number, in words if it is the number of a kind. -/
def nameOf (n : Int) : String :=
  match all.find? fun k => (k.index : Int) == n with
  | some k => k.name
  | none => "TokenType(" ++ Int.repr n ++ ")"

/-- The kind of a punctuation character. -/
def punctuation? : Char → Option Kind
  | '<' => some .less
  | '>' => some .greater
  | ',' => some .comma
  | '.' => some .period
  | '?' => some .question
  | '&' => some .and
  | '[' => some .leftBracket
  | ']' => some .rightBracket
  | '(' => some .leftParen
  | ')' => some .rightParen
  | _ => none

/-- The kind of a single character that is neither blank nor part of an identifier. -/
def ofSingle (c : Char) : Kind := (punctuation? c).getD .illegal

/-- No character is the end of the input. -/
theorem ofSingle_ne_finish (c : Char) : ofSingle c ≠ .finish := by
  unfold ofSingle punctuation?
  split <;> simp

end Kind

/-- A token: its kind, the byte offset of its first glyph, and its glyphs. -/
structure Token where
  kind : Kind
  offset : Nat
  glyphs : List Glyph
deriving DecidableEq, Repr

namespace Token

/-- The text an identifier or an illegal character carries. -/
def data (t : Token) : String :=
  match t.kind with
  | .ident | .illegal => Glyph.textOf t.glyphs
  | _ => ""

/-- The token in words. -/
def describe [Alphabet] (t : Token) : String :=
  match t.kind with
  | .ident | .illegal => t.kind.name ++ " " ++ quoted t.data
  | k => k.name

/-- Whether the token is the given word. -/
def isWord (t : Token) (word : String) : Bool := t.kind == .ident && t.data == word

end Token

/-- A position in the input: the byte offset and the glyphs from there on. -/
structure Cursor where
  offset : Nat
  rest : List Glyph

namespace Cursor

/-- The position after the blanks that stand at the cursor. -/
def skipBlanks (c : Cursor) : Cursor :=
  ⟨c.offset + Glyph.widthAll (c.rest.takeWhile (isBlank ·.char)),
    c.rest.dropWhile (isBlank ·.char)⟩

/-- Skipping blanks leaves no more than there was. -/
theorem skipBlanks_length_le (c : Cursor) : c.skipBlanks.rest.length ≤ c.rest.length :=
  (List.dropWhile_sublist _).length_le

variable [Alphabet]

/-- The token that stands right at the cursor, and the position after it. -/
def read (c : Cursor) : Token × Cursor :=
  match c.rest with
  | [] => (⟨.finish, c.offset, []⟩, c)
  | g :: more =>
    if opensIdentifier g.char then
      let word := g :: more.takeWhile (extendsIdentifier ·.char)
      (⟨.ident, c.offset, word⟩,
        ⟨c.offset + Glyph.widthAll word, more.dropWhile (extendsIdentifier ·.char)⟩)
    else (⟨Kind.ofSingle g.char, c.offset, [g]⟩, ⟨c.offset + g.width, more⟩)

/-- The next token, blanks skipped, and the position after it. -/
def next (c : Cursor) : Token × Cursor := c.skipBlanks.read

/-- Every token but the last one takes something from the input. -/
theorem read_length_lt (c : Cursor) (h : c.read.1.kind ≠ .finish) :
    c.read.2.rest.length < c.rest.length := by
  unfold read at h ⊢
  split
  · simp_all
  · rename_i g more hrest
    split
    · have := (List.dropWhile_sublist (extendsIdentifier ·.char) (l := more)).length_le
      simp only [hrest, List.length_cons]
      omega
    · simp [hrest]

/-- So every next token but the last one leaves less than there was. -/
theorem next_length_lt (c : Cursor) (h : c.next.1.kind ≠ .finish) :
    c.next.2.rest.length < c.rest.length :=
  Nat.lt_of_lt_of_le (read_length_lt _ h) (skipBlanks_length_le c)

/-- All tokens from the cursor on, with the end of the input as the last one. -/
def tokens (c : Cursor) : List Token :=
  if _h : c.next.1.kind = .finish then [c.next.1] else c.next.1 :: c.next.2.tokens
termination_by c.rest.length
decreasing_by exact next_length_lt c _h

/-- The tokens of so many calls for the next one. -/
def take (c : Cursor) : Nat → List Token
  | 0 => []
  | n + 1 => c.next.1 :: c.next.2.take n

end Cursor

namespace Token

/-- The position at the start of some glyphs. -/
def start (glyphs : List Glyph) : Cursor := ⟨0, glyphs⟩

/-- The tokens of a byte string. -/
def scan [Alphabet] (bytes : Bytes) : List Token := (start (Glyph.decode bytes)).tokens

end Token

end Generics.Expr
