/-
# Anchors, tags and directives

In front of a node may stand an anchor, `&name`, and a tag. A tag is written in one of these
forms:

| written | handle | suffix |
| --- | --- | --- |
| `!<uri>` | none | `uri` |
| `!word!rest`, `!!rest` | `!word!`, `!!` | `rest` |
| `!rest` | `!` | `rest` |
| `!` | none | `!` |

A directive on a line of its own, `%TAG !word! uri`, says what a handle stands for; another one,
`%YAML 1.1`, gives the version.
-/

import Generics.Text.Glyph
import Generics.Text.Numeral
import Generics.Text.Quoted
import Generics.Yaml.Cursor
import Generics.Yaml.Token

namespace Generics.Yaml

/-- Whether a character may stand in a name. -/
def isNameChar (c : Char) : Bool :=
  c.isDigit || ('A' ≤ c && c ≤ 'Z') || ('a' ≤ c && c ≤ 'z') || c == '_' || c == '-'

/-- Characters that a name may be followed by without a blank between. -/
def isNameEnd (c : Char) : Bool :=
  c == '?' || c == ':' || c == ',' || c == ']' || c == '}' || c == '%' || c == '@'
    || c.toNat == 0x60

/-- Reads the name of an anchor or an alias from its indicator on. -/
def anchorName (p : Cursor) : Except Fault (String × Cursor) :=
  let name := p.step.rest.takeWhile isNameChar
  let q := p.step.stepOver name
  if !name.isEmpty && (endsWord q.rest || (q.rest.head?.map isNameEnd).getD false) then
    .ok (String.ofList name, q)
  else
    .error (.ofText p.line q.line "did not find expected alphabetic or numeric character")

/-! ## Tags -/

/-- Whether a character may stand in a tag as it is. -/
def isTagChar (c : Char) : Bool :=
  isNameChar c || ";/?:@&=+$,.!~*()[]".toList.contains c || c == Text.singleQuote

/-- The byte of a percent sign and two digits. -/
def octet? : List Char → Option Nat
  | '%' :: a :: b :: _ =>
    match Text.Numeral.digit? a, Text.Numeral.digit? b with
    | some h, some l => some (h * 16 + l)
    | _, _ => none
  | _ => none

/-- The number of bytes of a character that starts with the given one, zero if none does. -/
def octetsFor (first : Nat) : Nat :=
  if first < 0x80 then 1
  else if 0xC0 ≤ first && first < 0xE0 then 2
  else if 0xE0 ≤ first && first < 0xF0 then 3
  else if 0xF0 ≤ first && first < 0xF8 then 4
  else 0

/-- Reads so many further bytes of a character. The bytes are kept last first. -/
def trailingOctets : Nat → List UInt8 → Cursor → Except String (List UInt8 × Cursor)
  | 0, bytes, p => .ok (bytes, p)
  | n + 1, bytes, p =>
    match octet? p.rest with
    | none => .error "did not find URI escaped octet"
    | some o =>
      if 0x80 ≤ o && o < 0xC0 then
        trailingOctets n (UInt8.ofNat o :: bytes) (p.stepOver (p.rest.take 3))
      else .error "found an incorrect trailing UTF-8 octet"

/-- Reads a character that is written by its bytes. -/
def escapedOctets (bytes : List UInt8) (p : Cursor) : Except String (List UInt8 × Cursor) :=
  match octet? p.rest with
  | none => .error "did not find URI escaped octet"
  | some o =>
    if octetsFor o = 0 then .error "found an incorrect leading UTF-8 octet"
    else
      trailingOctets (octetsFor o - 1) (UInt8.ofNat o :: bytes) (p.stepOver (p.rest.take 3))

/-- Reads the characters of a tag, the bytes so far last first. -/
def tagFrom : Nat → List UInt8 → Cursor → Except String (List UInt8 × Cursor)
  | 0, bytes, p => .ok (bytes, p)
  | n + 1, bytes, p =>
    match p.rest with
    | [] => .ok (bytes, p)
    | c :: _ =>
      if c == '%' then
        match escapedOctets bytes p with
        | .ok (bytes, q) => tagFrom n bytes q
        | .error problem => .error problem
      else if isTagChar c then tagFrom n (UInt8.ofNat c.toNat :: bytes) p.step
      else .ok (bytes, p)

/-- Reads the text of a tag after what is known of it already; it may be empty only if that is
given. -/
def tagText (size : Nat) (known? : Option (List Char)) (p : Cursor) :
    Except String (String × Cursor) :=
  let known := (known?.getD []).map fun c => UInt8.ofNat c.toNat
  match tagFrom size known.reverse p with
  | .error problem => .error problem
  | .ok (bytes, q) =>
    if known?.isNone && bytes.isEmpty then .error "did not find expected tag URI"
    else .ok (Glyph.textOf (Glyph.decode bytes.reverse), q)

/-- Reads a handle: an exclamation mark and a word, with a second mark if it is complete. -/
def handle (p : Cursor) : List Char × Cursor :=
  let word := p.step.rest.takeWhile isNameChar
  let q := p.step.stepOver word
  if q.atChar '!' then ('!' :: word ++ ['!'], q.step) else ('!' :: word, q)

/-- Reads a tag from its exclamation mark on: its handle and its suffix. -/
def tagParts (size : Nat) (p : Cursor) : Except String ((String × String) × Cursor) :=
  if p.step.atChar '<' then
    match tagText size none p.step.step with
    | .error problem => .error problem
    | .ok (suffix, q) =>
      if q.atChar '>' then .ok (("", suffix), q.step)
      else .error "did not find the expected '>'"
  else
    let (name, q) := handle p
    if 1 < name.length && name.getLast? == some '!' then
      (tagText size none q).map fun (suffix, r) => ((String.ofList name, suffix), r)
    else
      (tagText size (some name.tail) q).map fun (suffix, r) =>
        (if suffix.isEmpty then ("", "!") else ("!", suffix), r)

/-- Reads a tag from its exclamation mark on. -/
def tagLexeme (size : Nat) (p : Cursor) : Except Fault (Lexeme × Cursor) :=
  match tagParts size p with
  | .error problem => .error (.ofText p.line p.line problem)
  | .ok ((name, suffix), q) =>
    if endsWord q.rest then .ok (.tag name suffix, q)
    else .error (.ofText p.line q.line "did not find expected whitespace or line break")

/-! ## Directives -/

/-- Reads a number of one or two digits. -/
def versionNumber (p : Cursor) : Except String (Nat × Cursor) :=
  let digits := p.rest.takeWhile Char.isDigit
  if digits.isEmpty then .error "did not find expected version number"
  else if 2 < digits.length then .error "found extremely long version number"
  else
    .ok (digits.foldl (fun n c => n * 10 + (c.toNat - '0'.toNat)) 0, p.stepOver digits)

/-- Reads the two numbers of a version. -/
def versionLexeme (p : Cursor) : Except String (Lexeme × Cursor) := do
  let (major, q) ← versionNumber p.skipBlanks
  if q.atChar '.' then
    let (minor, r) ← versionNumber q.step
    .ok (.version major minor, r)
  else .error "did not find expected digit or '.' character"

/-- Reads a handle and what it stands for. -/
def handleLexeme (size : Nat) (p : Cursor) : Except String (Lexeme × Cursor) := do
  let p := p.skipBlanks
  if p.atChar '!' then
    let (name, q) := handle p
    if 1 < name.length && name.getLast? != some '!' then .error "did not find expected '!'"
    else if !q.atBlank then .error "did not find expected whitespace"
    else
      let (expansion, r) ← tagText size none q.skipBlanks
      if endsWord r.rest then .ok (.tagHandle (String.ofList name) expansion, r)
      else .error "did not find expected whitespace or line break"
  else .error "did not find expected '!'"

/-- Reads a directive from its percent sign on, with the rest of its line. -/
def directive (size : Nat) (p : Cursor) : Except Fault (Lexeme × Cursor) :=
  let name := p.step.rest.takeWhile isNameChar
  let q := p.step.stepOver name
  let read : Except String (Lexeme × Cursor) :=
    if name.isEmpty then .error "could not find expected directive name"
    else if !endsWord q.rest then .error "found unexpected non-alphabetical character"
    else if String.ofList name = "YAML" then versionLexeme q
    else if String.ofList name = "TAG" then handleLexeme size q
    else .error "found unknown directive name"
  match read with
  | .error problem => .error (.ofText p.line q.line problem)
  | .ok (lexeme, r) =>
    let r := r.skipBlanks
    let r := if r.atChar '#' then r.skipLine else r
    if r.atEnd || r.atBreak then .ok (lexeme, r.breakLine)
    else .error (.ofText p.line r.line "did not find expected comment or line break")

end Generics.Yaml
