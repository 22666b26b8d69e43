/-
# Scalars of YAML documents

A scalar is plain, in single or double quotes, or a block of lines. A plain or quoted one may go
on over several lines: a line break between two words reads as a blank, and if there are
several, the first one is left out, together with the blanks around them. A block keeps its
lines, or folds them by the same rule if it starts with `>`.

What is read is kept with the last character first until the scalar is complete. The functions
call themselves at most as often as a given number, for which the length of the text is enough.
-/

import Generics.Text.Numeral
import Generics.Text.Quoted
import Generics.Yaml.Cursor

namespace Generics.Yaml

open Generics.Text (singleQuote)

/-! ## Words and gaps -/

/-- What stands between two words of a scalar: blanks, or at least one line break, of which the
first one is kept apart. Texts have the last character first. -/
inductive Gap
  | blanks (text : List Char)
  | lines (first more : List Char)

namespace Gap

/-- What a gap reads as, last character first. -/
def text : Gap → List Char
  | .blanks text => text
  | .lines first more =>
    if first == ['\n'] then (if more.isEmpty then [' '] else more) else more ++ first

/-- Whether a gap goes over the end of a line. -/
def hasBreak : Gap → Bool
  | .blanks _ => false
  | .lines _ _ => true

end Gap

/-- Reads on in a gap. After a line break no tab may stand left of the margin; the position of
one that does is the failure. -/
def gapFrom (margin : Nat) : Nat → Gap → Cursor → Except Cursor (Gap × Cursor)
  | 0, g, p => .ok (g, p)
  | n + 1, g, p =>
    match p.rest with
    | [] => .ok (g, p)
    | c :: _ =>
      if isBlank c then
        match g with
        | .blanks text => gapFrom margin n (.blanks (c :: text)) p.step
        | .lines _ _ =>
          if c == '\t' && p.column < margin then .error p else gapFrom margin n g p.step
      else if isBreak c then
        match g with
        | .blanks _ => gapFrom margin n (.lines p.breakText []) p.breakLine
        | .lines first more => gapFrom margin n (.lines first (p.breakText ++ more)) p.breakLine
      else .ok (g, p)

/-! ## Plain scalars -/

/-- Characters that end a plain scalar inside brackets and braces. -/
def isFlowMark (c : Char) : Bool :=
  c == ',' || c == '?' || c == '[' || c == ']' || c == '{' || c == '}'

/-- The next word of a plain scalar, last character first. A colon at a word's end does not
belong to it. -/
def plainWord (isFlow : Bool) (word : List Char) : List Char → List Char
  | [] => word
  | c :: cs =>
    if isBlank c || isBreak c || (c == ':' && endsWord cs) || (isFlow && isFlowMark c) then word
    else plainWord isFlow (c :: word) cs

/-- Reads on in a plain scalar: its text so far and the gap after it. The scalar ends before a
marker or a comment, and outside brackets before a line that starts left of the margin. -/
def plainFrom (isFlow : Bool) (margin : Nat) :
    Nat → List Char → Gap → Cursor → Except Cursor (List Char × Gap × Cursor)
  | 0, text, g, p => .ok (text, g, p)
  | n + 1, text, g, p =>
    if p.atMarker '-' || p.atMarker '.' || p.atChar '#' then .ok (text, g, p)
    else
      let word := plainWord isFlow [] p.rest
      let q := p.stepOver word
      let (text, g) := if word.isEmpty then (text, g) else (word ++ g.text ++ text, .blanks [])
      if q.atBlank || q.atBreak then
        match gapFrom margin n g q with
        | .error tab => .error tab
        | .ok (g, q) =>
          if !isFlow && q.column < margin then .ok (text, g, q)
          else plainFrom isFlow margin n text g q
      else .ok (text, g, q)

/-- Reads a plain scalar; also answers whether lines ended after it. -/
def plainScalar (size : Nat) (isFlow : Bool) (margin : Nat) (p : Cursor) :
    Except Fault (String × Bool × Cursor) :=
  match plainFrom isFlow margin size [] (.blanks []) p with
  | .ok (text, g, q) => .ok (String.ofList text.reverse, g.hasBreak, q)
  | .error tab =>
    .error (.ofText p.line tab.line "found a tab character that violates indentation")

/-! ## Quoted scalars -/

/-- The character of an escape that is one letter long. -/
def escaped? (c : Char) : Option Char :=
  if c == singleQuote then some c
  else match c with
  | '0' => some (Char.ofNat 0x00)
  | 'a' => some (Char.ofNat 0x07)
  | 'b' => some (Char.ofNat 0x08)
  | 't' => some '\t'
  | '\t' => some '\t'
  | 'n' => some '\n'
  | 'v' => some (Char.ofNat 0x0B)
  | 'f' => some (Char.ofNat 0x0C)
  | 'r' => some (Char.ofNat 0x0D)
  | 'e' => some (Char.ofNat 0x1B)
  | ' ' => some ' '
  | '"' => some '"'
  | '\\' => some '\\'
  | 'N' => some (Char.ofNat 0x85)
  | '_' => some (Char.ofNat 0xA0)
  | 'L' => some (Char.ofNat 0x2028)
  | 'P' => some (Char.ofNat 0x2029)
  | _ => none

/-- How many digits follow the letter of an escape by number. -/
def escapeDigits? (c : Char) : Option Nat :=
  match c with
  | 'x' => some 2
  | 'u' => some 4
  | 'U' => some 8
  | _ => none

/-- The character that an escape stands for, with the number of characters after the
backslash. -/
def escape (cs : List Char) : Except String (Char × Nat) :=
  match cs with
  | [] => .error "found unknown escape character"
  | c :: ds =>
    match escaped? c, escapeDigits? c with
    | some e, _ => .ok (e, 1)
    | none, none => .error "found unknown escape character"
    | none, some count =>
      match (ds.take count).mapM Text.Numeral.digit? with
      | none => .error "did not find expected hexdecimal number"
      | some digits =>
        let code := digits.foldl (fun n d => n * 16 + d) 0
        if digits.length < count then .error "did not find expected hexdecimal number"
        else if code.isValidChar then .ok (Char.ofNat code, count + 1)
        else .error "found invalid Unicode character escape code"

/-- Reads on to a blank, a line's end or the closing quote, and answers whether it was a line's
end behind a backslash, which it passes. -/
def quotedWord (quote : Char) (start : Nat) :
    Nat → List Char → Cursor → Except Fault (List Char × Bool × Cursor)
  | 0, text, p => .ok (text, false, p)
  | n + 1, text, p =>
    match p.rest with
    | [] => .ok (text, false, p)
    | c :: cs =>
      if isBlank c || isBreak c then .ok (text, false, p)
      else if c == quote then
        if c == singleQuote && cs.head? == some c then
          quotedWord quote start n (c :: text) p.step.step
        else .ok (text, false, p)
      else if c == '\\' && quote == '"' then
        if p.step.atBreak then .ok (text, true, p.step.breakLine)
        else match escape cs with
          | .ok (e, count) =>
            quotedWord quote start n (e :: text) (p.stepOver (c :: cs.take count))
          | .error problem => .error (.ofText start p.line problem)
      else quotedWord quote start n (c :: text) p.step

/-- Reads on in a quoted scalar up to the closing quote. -/
def quotedFrom (quote : Char) (start : Nat) :
    Nat → List Char → Cursor → Except Fault (List Char × Cursor)
  | 0, _, p => .error (.ofText start p.line "found unexpected end of stream")
  | n + 1, text, p =>
    if p.atMarker '-' || p.atMarker '.' then
      .error (.ofText start p.line "found unexpected document indicator")
    else if p.atEnd then .error (.ofText start p.line "found unexpected end of stream")
    else match quotedWord quote start n text p with
      | .error f => .error f
      | .ok (text, isJoined, q) =>
        if q.atChar quote then .ok (text, q.step)
        else match gapFrom 0 n (if isJoined then .lines [] [] else .blanks []) q with
          | .ok (g, q) => quotedFrom quote start n (g.text ++ text) q
          | .error tab => .ok (text, tab)

/-- Reads a scalar from its opening quote on. -/
def quotedScalar (size : Nat) (quote : Char) (p : Cursor) : Except Fault (String × Cursor) :=
  match quotedFrom quote p.line size [] p.step with
  | .ok (text, q) => .ok (String.ofList text.reverse, q)
  | .error f => .error f

/-! ## Block scalars -/

/-- What happens to the line breaks at the end of a block. -/
inductive Chomping
  | strip
  | clip
  | keep
deriving DecidableEq, Repr

/-- The header of a block: what happens at its end, and how much further than what surrounds it
the lines are indented, zero if that is left open. -/
structure BlockHeader where
  chomping : Chomping := .clip
  increment : Nat := 0

/-- The chomping that a character stands for. -/
def chomping? : Char → Option Chomping
  | '+' => some .keep
  | '-' => some .strip
  | _ => none

/-- Reads the header of a block: a chomping and a digit, in either order. -/
def blockHeader (p : Cursor) : Option (BlockHeader × Cursor) :=
  match p.rest with
  | c :: cs =>
    match chomping? c with
    | some chomping =>
      match cs with
      | d :: _ =>
        if d == '0' then none
        else if d.isDigit then
          some ({ chomping, increment := d.toNat - '0'.toNat }, p.step.step)
        else some ({ chomping }, p.step)
      | [] => some ({ chomping }, p.step)
    | none =>
      if c == '0' then none
      else if c.isDigit then
        let increment := c.toNat - '0'.toNat
        match cs.head?.bind chomping? with
        | some chomping => some ({ chomping, increment }, p.step.step)
        | none => some ({ increment }, p.step)
      else some ({}, p)
  | [] => some ({}, p)

/-- Reads on over empty lines and indentation up to the given column, or any indentation if that
is zero: the line breaks, last first, the widest indentation, and the position. A tab may not
stand in the indentation; the position of one that does is the failure. -/
def emptyLines (indent : Nat) :
    Nat → List Char → Nat → Cursor → Except Cursor (List Char × Nat × Cursor)
  | 0, breaks, widest, p => .ok (breaks, widest, p)
  | n + 1, breaks, widest, p =>
    let free := if indent = 0 then p.rest else p.rest.take (indent - p.column)
    let q := p.stepOver (free.takeWhile (· == ' '))
    let widest := max widest q.column
    if (indent = 0 || q.column < indent) && q.atChar '\t' then .error q
    else if q.atBreak then emptyLines indent n (q.breakText ++ breaks) widest q.breakLine
    else .ok (breaks, widest, q)

/-- A block as far as it was read, last characters first: its text, the last line break, the
empty lines after it, and whether the last line started with a blank. -/
structure Block where
  text : List Char := []
  lead : List Char := []
  trail : List Char := []
  isIndented : Bool := false

/-- Reads on in a block with lines in the given column. -/
def blockFrom (isLiteral : Bool) (indent : Nat) :
    Nat → Block → Cursor → Except Cursor (Block × Cursor)
  | 0, b, p => .ok (b, p)
  | n + 1, b, p =>
    if p.column == indent && !p.atEnd then
      let joint :=
        if !isLiteral && !b.isIndented && !p.atBlank && b.lead == ['\n'] then
          (if b.trail.isEmpty then [' '] else [])
        else b.lead
      let line := p.rest.takeWhile fun c => !isBreak c
      let q := p.stepOver line
      match emptyLines indent n [] 0 q.breakLine with
      | .error tab => .error tab
      | .ok (trail, _, r) =>
        blockFrom isLiteral indent n
          { text := line.reverse ++ (b.trail ++ (joint ++ b.text)), lead := q.breakText, trail
            isIndented := p.atBlank }
          r
    else .ok (b, p)

/-- The whole text of a block. -/
def Block.close (b : Block) : Chomping → List Char
  | .strip => b.text.reverse
  | .clip => (b.lead ++ b.text).reverse
  | .keep => (b.trail ++ (b.lead ++ b.text)).reverse

/-- Reads a block scalar from its indicator on. The margin is where the lines of what surrounds
it may start. -/
def blockScalar (size : Nat) (isLiteral : Bool) (margin : Nat) (p : Cursor) :
    Except Fault (String × Cursor) :=
  let fault (q : Cursor) (problem : String) : Except Fault (String × Cursor) :=
    .error (.ofText p.line q.line problem)
  match blockHeader p.step with
  | none => fault p "found an indentation indicator equal to 0"
  | some (header, q) =>
    let q := q.skipBlanks
    let q := if q.atChar '#' then q.skipLine else q
    if q.atEnd || q.atBreak then
      let given := if header.increment = 0 then 0 else margin - 1 + header.increment
      let tabbed := "found a tab character where an indentation space is expected"
      match emptyLines given size [] 0 q.breakLine with
      | .error tab => fault tab tabbed
      | .ok (trail, widest, r) =>
        let indent := if given = 0 then max widest (max margin 1) else given
        match blockFrom isLiteral indent size { trail } r with
        | .error tab => fault tab tabbed
        | .ok (b, last) => .ok (String.ofList (b.close header.chomping), last)
    else fault q "did not find expected comment or line break"

end Generics.Yaml
