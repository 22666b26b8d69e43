/-
# Positions in a YAML text

A cursor stands before a character of a text and knows how far it has come: the number of
characters read, the line counted from 1, and the column counted from 0. Five characters end
a line, a carriage return together with a line feed after it being one end:

| written | code | reads as |
| --- | ---: | --- |
| carriage return, line feed, both | `0D`, `0A` | line feed |
| next line | `85` | line feed |
| line separator, paragraph separator | `2028`, `2029` | itself |

A text is taken in by parts of at most 512 bytes. A part that holds a character which may not
stand in a document is not readable, but that shows only when the reading comes near it.
-/

namespace Generics.Yaml

/-- Why a text is not taken for a document, with the line that the problem is reported for. -/
structure Fault where
  problem : String
  line? : Option Nat := none
deriving DecidableEq, Repr

/-- The wording of a fault. -/
def Fault.message (f : Fault) : String :=
  "yaml: "
    ++ (match f.line? with
      | some n => "line " ++ Nat.repr n ++ ": "
      | none => "")
    ++ f.problem

/-- A fault in the text of what started on a line and went wrong on another. The first line is
not reported. -/
def Fault.ofText (start here : Nat) (problem : String) : Fault :=
  { problem, line? := if start ≠ 1 then some start else if here ≠ 1 then some here else none }

/-- A fault in how nodes are put together, reported with the number of lines before it. -/
def Fault.ofShape (start here : Nat) (problem : String) : Fault :=
  { problem
    line? := if start ≠ 1 then some (start - 1) else if here ≠ 1 then some (here - 1) else none }

/-- Whether a character is a space or a tab. -/
def isBlank (c : Char) : Bool := c == ' ' || c == '\t'

/-- Whether a character ends a line. -/
def isBreak (c : Char) : Bool :=
  c == '\n' || c == '\r' || c.toNat == 0x85 || c.toNat == 0x2028 || c.toNat == 0x2029

/-- Whether nothing, a blank or the end of a line is next. -/
def endsWord : List Char → Bool
  | [] => true
  | c :: _ => isBlank c || isBreak c

/-- A position in a text. -/
structure Cursor where
  rest : List Char
  index : Nat := 0
  line : Nat := 1
  column : Nat := 0
  /-- Ends of lines since the last character that was no blank. -/
  breaks : Nat := 0

namespace Cursor

/-- Whether the text ends here. -/
def atEnd (p : Cursor) : Bool := p.rest.isEmpty

/-- Whether a given character is next. -/
def atChar (p : Cursor) (c : Char) : Bool := p.rest.head? == some c

/-- Whether a blank is next. -/
def atBlank (p : Cursor) : Bool := (p.rest.head?.map isBlank).getD false

/-- Whether the end of a line is next. -/
def atBreak (p : Cursor) : Bool := (p.rest.head?.map isBreak).getD false

/-- Whether a marker that starts or ends a document is next, which takes the first column and
three characters with a word's end after them. -/
def atMarker (p : Cursor) (c : Char) : Bool :=
  p.column == 0
    && (match p.rest with
      | a :: b :: d :: cs => a == c && b == c && d == c && endsWord cs
      | _ => false)

/-- The position after a character that does not end a line. -/
def step (p : Cursor) : Cursor :=
  match p.rest with
  | [] => p
  | c :: cs =>
    { p with
      rest := cs, index := p.index + 1, column := p.column + 1
      breaks := if isBlank c then p.breaks else 0 }

/-- The position after characters that are next and do not end a line. -/
def stepOver (p : Cursor) (taken : List Char) : Cursor :=
  { p with
    rest := p.rest.drop taken.length, index := p.index + taken.length
    column := p.column + taken.length, breaks := if taken.all isBlank then p.breaks else 0 }

/-- The position after the characters of a class that does not end lines. -/
def skipWhile (p : Cursor) (f : Char → Bool) : Cursor := p.stepOver (p.rest.takeWhile f)

/-- The position after blanks. -/
def skipBlanks (p : Cursor) : Cursor := p.skipWhile isBlank

/-- The position at the end of the line. -/
def skipLine (p : Cursor) : Cursor := p.skipWhile fun c => !isBreak c

/-- The position after so many characters of a line's end. -/
def nextLine (p : Cursor) (taken : Nat) : Cursor :=
  { rest := p.rest.drop taken, index := p.index + taken, line := p.line + 1
    breaks := p.breaks + 1 }

/-- The position on the next line, if a line ends here. -/
def breakLine (p : Cursor) : Cursor :=
  match p.rest with
  | '\r' :: '\n' :: _ => p.nextLine 2
  | c :: _ => if isBreak c then p.nextLine 1 else p
  | [] => p

/-- What the end of the line reads as, nothing if no line ends here. -/
def breakText (p : Cursor) : List Char :=
  match p.rest with
  | c :: _ => if isBreak c then [if c.toNat < 0x100 then '\n' else c] else []
  | [] => []

/-- The position of the next of several comments: only blanks and ends of lines, of fewer
characters than a part of the text, come before it. -/
def nextComment? (p : Cursor) : Option (List Char) :=
  match p.rest with
  | c :: cs =>
    let between := cs.takeWhile fun d => isBlank d || d == '\n' || d == '\r'
    if (c == '\n' || c == '\r') && between.length < 511
        && (cs.drop between.length).head? == some '#' then
      some (c :: between)
    else none
  | [] => none

/-- The position after blanks and ends of lines, at most so many. -/
def skipSpace : Nat → Cursor → Cursor
  | 0, p => p
  | n + 1, p =>
    if p.atBreak then skipSpace n p.breakLine
    else if p.atBlank then skipSpace n p.step
    else p

/-- The position after a comment and those that follow it, at the end of the last one's line;
at most so many are looked at. -/
def skipComments : Nat → Cursor → Cursor
  | 0, p => p
  | n + 1, p =>
    let q := p.skipLine
    match q.nextComment? with
    | some between => skipComments n (skipSpace between.length q)
    | none => q

/-- The position after a comment on the line of what was read last. -/
def skipLineComment (p : Cursor) : Cursor :=
  let blanks := p.rest.takeWhile isBlank
  if p.breaks == 0 && blanks.length < 512
      && (p.rest.drop blanks.length).head? == some '#' then
    p.skipLine
  else p

end Cursor

/-- Whether a character may stand in a document. -/
def isAllowed (c : Char) : Bool :=
  let n := c.toNat
  n == 0x09 || n == 0x0A || n == 0x0D || (0x20 ≤ n && n ≤ 0x7E) || n == 0x85
    || (0xA0 ≤ n && n ≤ 0xD7FF) || (0xE000 ≤ n && n ≤ 0xFFFD) || 0x10000 ≤ n

/-- The most bytes of a part. -/
def partSize : Nat := 512

/-- The parts of a text, given the characters of the first one so far, last first, and the
bytes that it still has room for. -/
def partsFrom (room : Nat) (part : List Char) : List Char → List (List Char)
  | [] => [part.reverse]
  | c :: cs =>
    if c.utf8Size ≤ room then partsFrom (room - c.utf8Size) (c :: part) cs
    else part.reverse :: partsFrom (partSize - c.utf8Size) [c] cs

/-- The mark that may stand in front of a text for its byte order. -/
def byteOrderMark : Char := Char.ofNat 0xFEFF

/-- What is to be read of a text. -/
structure Source where
  chars : List Char
  /-- Whether an unreadable part comes next. -/
  isCut : Bool
  /-- If a second byte order mark stands in front, the length of the first part: in there the
  first character of each line is passed over. -/
  markedUntil : Nat

/-- The readable parts of a text, without the mark in front. -/
def Source.ofText (text : String) : Source :=
  let (room, chars) := match text.toList with
    | c :: cs => if c == byteOrderMark then (partSize - c.utf8Size, cs) else (partSize, c :: cs)
    | [] => (partSize, [])
  let parts := partsFrom room [] chars
  let readable := parts.takeWhile fun part => part.all isAllowed
  { chars := readable.flatten
    isCut := readable.length < parts.length
    markedUntil :=
      if room < partSize && chars.head? == some byteOrderMark then
        (parts.head?.map List.length).getD 0
      else 0 }

end Generics.Yaml
