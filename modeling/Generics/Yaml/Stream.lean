/-
# The tokens of a YAML text

A text is cut into tokens as they are asked for, never fewer than two ahead of the one that is
needed. So a text may hold anything behind its first document, unless it is so close that it has
been looked at.

Whether a node is a key shows only when a colon follows it. Where a key may start, its place is
kept; a colon on the same line and within 1024 characters turns it into one, and puts a token in
front of it. Inside brackets every level keeps a place of its own. While the next token may be
a key, more tokens are cut.

Outside brackets a margin is kept for each open block: the first column that its content may
start in. A token left of it closes the block.
-/

import Generics.Yaml.Property
import Generics.Yaml.Scalar

namespace Generics.Yaml

/-- A place where a key may have started. -/
structure KeyPlace where
  isPossible : Bool := false
  /-- Whether the block cannot go on with anything but a key here. -/
  isRequired : Bool := false
  /-- The number of the token at the place. -/
  number : Nat := 0
  index : Nat := 0
  line : Nat := 1
  column : Nat := 0

/-- The most levels of brackets, and of blocks. -/
def maxDepth : Nat := 10000

/-- The most characters from the start of a key to its colon. -/
def maxKeyLength : Nat := 1024

/-- A text that is being cut. -/
structure Stream where
  cursor : Cursor
  /-- A number above the length of the text. -/
  size : Nat
  isCut : Bool := false
  markedUntil : Nat := 0
  /-- How many tokens were taken. -/
  taken : Nat := 0
  /-- The tokens cut and not taken. -/
  queue : List Token := []
  margin : Nat := 0
  /-- The margins of the blocks around the innermost one. -/
  margins : List Nat := []
  isKeyAllowed : Bool := true
  /-- The place kept on each level, the level outside brackets first. -/
  places : Array KeyPlace := #[{}]
  /-- The level that keeps the place of a token, by the token's number. -/
  pending : List (Nat × Nat) := []

namespace Stream

/-- The stream of a text, with nothing cut. -/
def ofText (text : String) : Stream :=
  let source := Source.ofText text
  { cursor := { rest := source.chars }, size := source.chars.length + 8, isCut := source.isCut
    markedUntil := source.markedUntil }

/-- Whether the cursor is inside brackets or braces. -/
def isFlow (s : Stream) : Bool := 1 < s.places.size

/-- The number that the next token gets. -/
def nextNumber (s : Stream) : Nat := s.taken + s.queue.length

/-- The place kept on the innermost level. -/
def place (s : Stream) : KeyPlace := s.places.back?.getD {}

/-- Keeps another place on the innermost level. -/
def setPlace (s : Stream) (k : KeyPlace) : Stream :=
  { s with places := s.places.pop.push k }

/-- The stream without the entry for a token. -/
def settle (s : Stream) (number : Nat) : Stream :=
  { s with pending := s.pending.filter fun (n, _) => n != number }

/-- A fault at the cursor in what started on a line. -/
def fault {α : Type} (s : Stream) (start : Nat) (problem : String) : Except Fault α :=
  .error (.ofText start s.cursor.line problem)

/-- Appends a token. -/
def push (s : Stream) (lexeme : Lexeme) (line : Nat) : Stream :=
  { s with queue := s.queue ++ [⟨lexeme, line⟩] }

/-- Puts a token before the one of the given number, or at the end if that one was taken. -/
def insert (s : Stream) (number : Nat) (lexeme : Lexeme) (line : Nat) : Stream :=
  if number < s.taken then s.push lexeme line
  else { s with queue := s.queue.insertIdx (number - s.taken) ⟨lexeme, line⟩ }

/-! ## Places of keys -/

/-- Forgets the place on the innermost level, unless a key is required there. -/
def dropPlace (s : Stream) : Except Fault Stream :=
  let k := s.place
  if !k.isPossible then .ok s
  else if k.isRequired then s.fault k.line "could not find expected ':'"
  else .ok ((s.settle k.number).setPlace { k with isPossible := false })

/-- Keeps the cursor's place if a key may start there. -/
def savePlace (s : Stream) : Except Fault Stream :=
  if s.isKeyAllowed then do
    let p := s.cursor
    let k : KeyPlace :=
      { isPossible := true, isRequired := !s.isFlow && s.margin == p.column + 1
        number := s.nextNumber, index := p.index, line := p.line, column := p.column }
    let s ← s.dropPlace
    let s := s.setPlace k
    .ok { s with pending := (k.number, s.places.size - 1) :: s.pending }
  else .ok s

/-- Whether a colon at the cursor would make a key of what started at the place of a level. A
place that is too far away is given up. -/
def isOpen (s : Stream) (level : Nat) : Except Fault (Bool × Stream) :=
  match s.places[level]? with
  | none => .ok (false, s)
  | some k =>
    if !k.isPossible then .ok (false, s)
    else if k.line < s.cursor.line || k.index + maxKeyLength < s.cursor.index then
      if k.isRequired then s.fault k.line "could not find expected ':'"
      else
        .ok (false, { s with places := s.places.setIfInBounds level { k with isPossible := false } })
    else .ok (true, s)

/-! ## Margins -/

/-- Closes blocks, given how many columns may stay open, the margins around, the innermost
margin, and the tokens so far. -/
def closeBlocks (columns line : Nat) : List Nat → Nat → List Token → List Nat × Nat × List Token
  | [], margin, ends => ([], margin, ends)
  | outer :: margins, margin, ends =>
    if columns < margin then closeBlocks columns line margins outer (⟨.blockEnd, line⟩ :: ends)
    else (outer :: margins, margin, ends)

/-- Closes the blocks whose margin is right of so many columns. -/
def unroll (s : Stream) (columns : Nat) : Stream :=
  if s.isFlow then s
  else
    let (margins, margin, ends) := closeBlocks columns s.cursor.line s.margins s.margin []
    { s with margins, margin, queue := if ends.isEmpty then s.queue else s.queue ++ ends }

/-- Opens a block in a column right of the margin, with its token before that of the given
number, or at the end. -/
def roll (s : Stream) (column : Nat) (number? : Option Nat) (lexeme : Lexeme) (line : Nat) :
    Except Fault Stream :=
  if s.isFlow || column < s.margin then .ok s
  else
    let margins := s.margin :: s.margins
    if maxDepth < margins.length then
      s.fault s.place.line ("exceeded max depth of " ++ Nat.repr maxDepth)
    else
      let s := { s with margins, margin := column + 1 }
      .ok (match number? with
        | some number => s.insert number lexeme line
        | none => s.push lexeme line)

/-! ## Cutting tokens -/

/-- Passes blanks, comments and ends of lines. A tab counts as a blank only where no key may
start. -/
def skipToToken : Nat → Stream → Stream
  | 0, s => s
  | n + 1, s =>
    let p := s.cursor
    let p := if p.column == 0 && p.index + 4 ≤ s.markedUntil then p.step else p
    let tabs := s.isFlow || !s.isKeyAllowed
    let p := p.skipWhile fun c => c == ' ' || (tabs && c == '\t')
    let p := if p.atChar '#' then p.skipComments s.size else p
    if p.atBreak then
      skipToToken n
        { s with cursor := p.breakLine, isKeyAllowed := s.isKeyAllowed || !s.isFlow }
    else { s with cursor := p }

/-- Appends a token of so many characters at the cursor. -/
def take (s : Stream) (count : Nat) (lexeme : Lexeme) : Stream :=
  let p := s.cursor
  { s with cursor := p.stepOver (p.rest.take count) }.push lexeme p.line

/-- Ends all blocks, so that a marker, a directive or the end may follow. -/
def leaveBlocks (s : Stream) : Except Fault Stream := do
  let s ← (s.unroll 0).dropPlace
  .ok { s with isKeyAllowed := false }

/-- Cuts the end of the text. -/
def cutEnd (s : Stream) : Except Fault Stream := do
  let p := s.cursor
  let s := if p.column = 0 then s else { s with cursor := { p with column := 0, line := p.line + 1 } }
  let s ← s.leaveBlocks
  .ok (s.push .streamEnd s.cursor.line)

/-- Cuts a directive. -/
def cutDirective (s : Stream) : Except Fault Stream := do
  let s ← s.leaveBlocks
  let (lexeme, p) ← directive s.size s.cursor
  .ok ({ s with cursor := p }.push lexeme s.cursor.line)

/-- Cuts a marker of a document. -/
def cutMarker (s : Stream) (lexeme : Lexeme) : Except Fault Stream := do
  let s ← s.leaveBlocks
  .ok (s.take 3 lexeme)

/-- Cuts an opening bracket or brace. -/
def cutOpening (s : Stream) (lexeme : Lexeme) : Except Fault Stream := do
  let s ← s.savePlace
  let p := s.cursor
  let k : KeyPlace := { number := s.nextNumber, index := p.index, line := p.line, column := p.column }
  if maxDepth < s.places.size then
    s.fault p.line ("exceeded max depth of " ++ Nat.repr maxDepth)
  else .ok ({ s with places := s.places.push k, isKeyAllowed := true }.take 1 lexeme)

/-- Cuts a closing bracket or brace, with or without one that it closes. -/
def cutClosing (s : Stream) (lexeme : Lexeme) : Except Fault Stream := do
  let s ← s.dropPlace
  let s := if s.isFlow then s.settle s.place.number else s
  let s := if s.isFlow then { s with places := s.places.pop } else s
  .ok ({ s with isKeyAllowed := false }.take 1 lexeme)

/-- Cuts a comma. -/
def cutFlowEntry (s : Stream) : Except Fault Stream := do
  let s ← s.dropPlace
  .ok ({ s with isKeyAllowed := true }.take 1 .flowEntry)

/-- Cuts the dash of an entry of a block. -/
def cutBlockEntry (s : Stream) : Except Fault Stream := do
  let p := s.cursor
  if !s.isFlow && !s.isKeyAllowed then
    s.fault p.line "block sequence entries are not allowed in this context"
  else
    let s ← s.roll p.column none .blockSequenceStart p.line
    let s ← s.dropPlace
    .ok ({ s with isKeyAllowed := true }.take 1 .blockEntry)

/-- Cuts a question mark. -/
def cutKey (s : Stream) : Except Fault Stream := do
  let p := s.cursor
  if !s.isFlow && !s.isKeyAllowed then
    s.fault p.line "mapping keys are not allowed in this context"
  else
    let s ← s.roll p.column none .blockMappingStart p.line
    let s ← s.dropPlace
    .ok ({ s with isKeyAllowed := !s.isFlow }.take 1 .key)

/-- Cuts a colon: the value of the key that was seen last, or of one with a question mark. -/
def cutValue (s : Stream) : Except Fault Stream := do
  let (isKey, s) ← s.isOpen (s.places.size - 1)
  if isKey then
    let k := s.place
    let s := s.insert k.number .key k.line
    let s ← s.roll k.column (some k.number) .blockMappingStart k.line
    let s := (s.setPlace { k with isPossible := false }).settle k.number
    .ok ({ s with isKeyAllowed := false }.take 1 .value)
  else
    let p := s.cursor
    if !s.isFlow && !s.isKeyAllowed then
      s.fault p.line "mapping values are not allowed in this context"
    else
      let s ← s.roll p.column none .blockMappingStart p.line
      .ok ({ s with isKeyAllowed := !s.isFlow }.take 1 .value)

/-- Cuts what may be a key, given how it is read. No key may follow on the same line. -/
def cutNode (s : Stream) (read : Cursor → Except Fault (Lexeme × Cursor)) :
    Except Fault Stream := do
  let s ← s.savePlace
  let (lexeme, p) ← read s.cursor
  .ok ({ s with cursor := p, isKeyAllowed := false }.push lexeme s.cursor.line)

/-- Cuts a plain scalar. -/
def cutPlain (s : Stream) : Except Fault Stream := do
  let s ← s.savePlace
  let (text, isBroken, p) ← plainScalar s.size s.isFlow s.margin s.cursor
  .ok ({ s with cursor := p, isKeyAllowed := isBroken }.push (.scalar true text) s.cursor.line)

/-- Cuts a block scalar. -/
def cutBlockScalar (s : Stream) (isLiteral : Bool) : Except Fault Stream := do
  let s ← s.dropPlace
  let (text, p) ← blockScalar s.size isLiteral s.margin s.cursor
  .ok ({ s with cursor := p, isKeyAllowed := true }.push (.scalar false text) s.cursor.line)

/-- Characters that a plain scalar starts with only if something is right behind them, inside
brackets only the first one. -/
def isPlainDash (isFlow : Bool) (c : Char) (next : List Char) : Bool :=
  (c == '-' && !(next.head?.map isBlank).getD false)
    || (!isFlow && (c == '?' || c == ':') && !endsWord next)

/-- Characters that no plain scalar starts with. -/
def reserved : List Char :=
  ['-', '?', ':', ',', '[', ']', '{', '}', '#', '&', '*', '!', '|', '>', '"', '%', '@',
    Text.singleQuote, Char.ofNat 0x60]

/-- Cuts the token that starts with a character. -/
def cutAt (s : Stream) (c : Char) (next : List Char) : Except Fault Stream :=
  let isAlone := s.isFlow || endsWord next
  if c == '[' then s.cutOpening .flowSequenceStart
  else if c == '{' then s.cutOpening .flowMappingStart
  else if c == ']' then s.cutClosing .flowSequenceEnd
  else if c == '}' then s.cutClosing .flowMappingEnd
  else if c == ',' then s.cutFlowEntry
  else if c == '-' && endsWord next then s.cutBlockEntry
  else if c == '?' && isAlone then s.cutKey
  else if c == ':' && isAlone then s.cutValue
  else if c == '*' then s.cutNode fun p => (anchorName p).map fun (name, q) => (.alias name, q)
  else if c == '&' then s.cutNode fun p => (anchorName p).map fun (name, q) => (.anchor name, q)
  else if c == '!' then s.cutNode (tagLexeme s.size)
  else if c == '|' && !s.isFlow then s.cutBlockScalar true
  else if c == '>' && !s.isFlow then s.cutBlockScalar false
  else if c == '"' || c == Text.singleQuote then
    s.cutNode fun p => (quotedScalar s.size c p).map fun (text, q) => (.scalar false text, q)
  else if !(isBlank c || isBreak c || reserved.contains c) || isPlainDash s.isFlow c next then
    s.cutPlain
  else s.fault s.cursor.line "found character that cannot start any token"

/-- Passes a comment behind a token. One behind the dash of an entry belongs to what follows. -/
def skipLineComment (s : Stream) : Stream :=
  if s.queue.getLast?.map Token.lexeme == some .blockEntry then s
  else { s with cursor := s.cursor.skipLineComment }

/-- The fault that a part of the text is not readable. -/
def unreadable : Fault := { problem := "control characters are not allowed" }

/-- Cuts the next token, and those for the blocks that it opens or closes. -/
def cut (s : Stream) : Except Fault Stream := do
  let s := skipToToken s.size s
  let s := s.unroll (s.cursor.column + 1)
  let p := s.cursor
  if s.isCut && (p.rest.take 4).length < 4 then .error unreadable
  else match p.rest with
    | [] => s.cutEnd
    | c :: next =>
      if p.column == 0 && c == '%' then s.cutDirective
      else if p.atMarker '-' then s.cutMarker .documentStart
      else if p.atMarker '.' then s.cutMarker .documentEnd
      else do
        let s ← s.cutAt c next
        if s.isCut && s.cursor.atEnd then .error unreadable else .ok s.skipLineComment

/-- Cuts tokens until the next one is known, at most so many. -/
def fill : Nat → Stream → Except Fault Stream
  | 0, s => .ok s
  | n + 1, s =>
    if (s.queue.take 3).length < 3 then do fill n (← s.cut)
    else match s.pending.find? fun (number, _) => number == s.taken with
      | none => .ok s
      | some (_, level) => do
        let (isKey, s) ← s.isOpen level
        if isKey then fill n (← s.cut) else .ok s

/-- The next token. -/
def peek (s : Stream) : Except Fault (Token × Stream) := do
  let s ← fill (s.size + 8) s
  match s.queue with
  | t :: _ => .ok (t, s)
  | [] => .ok (⟨.streamEnd, s.cursor.line⟩, s)

/-- The stream without the next token. -/
def advance (s : Stream) : Stream :=
  { s with
    taken := s.taken + 1, queue := s.queue.tail
    pending := s.pending.filter fun (number, _) => number != s.taken }

end Stream

end Generics.Yaml
