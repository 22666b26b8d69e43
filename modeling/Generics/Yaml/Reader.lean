/-
# Reading YAML documents

Makes the nodes of the first document of a text from its tokens. What comes after that document
is not read, unless the tokens right behind it show a fault.

The rules call each other, so each takes a depth that its calls lower by one; the tokens that
a text can have bound it.
-/

import Generics.Yaml.Node
import Generics.Yaml.Stream

namespace Generics.Yaml

/-- How far the reading has come. -/
structure Progress where
  stream : Stream
  /-- What the handles of tags stand for. -/
  handles : List (String × String) := []
  /-- The numbers of the nodes with anchors, by name, the newest first. -/
  anchors : List (String × Nat) := []
  anchored : Array Node := #[]
  aliases : Nat := 0

/-- Steps of reading. -/
abbrev Reading := StateT Progress (Except Fault)

namespace Reading

/-- The next token. -/
def peek : Reading Token := fun s =>
  match s.stream.peek with
  | .ok (t, stream) => .ok (t, { s with stream })
  | .error f => .error f

/-- Takes the next token. -/
def advance : Reading Unit := modify fun s => { s with stream := s.stream.advance }

/-- Fails at a token in what started on a line. -/
def fail {α : Type} (start : Nat) (t : Token) (problem : String) : Reading α :=
  throw (.ofShape start t.line problem)

/-! ## Properties of nodes -/

/-- What stands in front of a node. -/
structure Properties where
  line : Nat
  anchor? : Option String := none
  tag? : Option (String × String) := none
  tagLine : Nat := line

/-- Reads an anchor, if one is next. -/
def anchor (ps : Properties) : Reading Properties := do
  match (← peek).lexeme with
  | .anchor name =>
    advance
    return { ps with anchor? := some name }
  | _ => return ps

/-- Reads a tag, if one is next. -/
def tag (ps : Properties) : Reading Properties := do
  let t ← peek
  match t.lexeme with
  | .tag handle suffix =>
    advance
    return { ps with tag? := some (handle, suffix), tagLine := t.line }
  | _ => return ps

/-- Reads an anchor and a tag, in either order. -/
def properties : Reading Properties := do
  let t ← peek
  let ps : Properties := { line := t.line }
  match t.lexeme with
  | .tag _ _ => anchor (← tag ps)
  | _ => tag (← anchor ps)

/-- The tag in its short form, empty if there is none or only an exclamation mark. -/
def tagOf (ps : Properties) : Reading String := do
  match ps.tag? with
  | none => return ""
  | some ("", suffix) => return if suffix = "!" then "" else shortTag suffix
  | some (handle, suffix) =>
    match (← get).handles.find? fun (h, _) => h == handle with
    | some (_, expansion) => return shortTag (expansion ++ suffix)
    | none => throw (.ofShape ps.line ps.tagLine "found undefined tag handle")

/-- Gives the node that is to be read a number, if it has an anchor. -/
def reserve (ps : Properties) : Reading (Option Nat) := do
  match ps.anchor? with
  | none => return none
  | some name =>
    let number := (← get).anchored.size
    modify fun s =>
      { s with anchors := (name, number) :: s.anchors, anchored := s.anchored.push default }
    return some number

/-- Keeps a node under its number. -/
def keep (number? : Option Nat) (node : Node) : Reading Node := do
  match number? with
  | none => return node
  | some number =>
    modify fun s => { s with anchored := s.anchored.setIfInBounds number node }
    return node

/-- The node that an alias repeats. -/
def aliased (line : Nat) (name : String) : Reading Node := do
  let s ← get
  match s.anchors.find? fun (n, _) => n == name with
  | none => throw { problem := "unknown anchor '" ++ name ++ "' referenced" }
  | some (_, target) =>
    set { s with aliases := s.aliases + 1 }
    return .alias line name s.aliases target

/-- A scalar with its properties. -/
def scalar (ps : Properties) (tag : String) (isPlain : Bool) (text : String) : Reading Node := do
  let number? ← reserve ps
  let tag := if tag ≠ "" then tag else if isPlain then plainTag text else "!!str"
  keep number? (.scalar ps.line tag text)

/-! ## Nodes -/

/-- Whether what belongs to an entry of a block mapping is left out before a token. -/
def endsBlockPart : Lexeme → Bool
  | .key | .value | .blockEnd => true
  | _ => false

/-- Whether an item of a block sequence is left out before a token. In the column of a mapping
the next key ends the sequence. -/
def endsBlockItem (isIndentless : Bool) : Lexeme → Bool
  | .blockEntry | .blockEnd => true
  | .key | .value => isIndentless
  | _ => false

/-- Whether what belongs to an entry in brackets is left out before a token. -/
def endsFlowPart (closing : Lexeme) (lexeme : Lexeme) : Bool :=
  lexeme == .flowEntry || lexeme == closing

mutual
/-- A node. Outside brackets it may be a block, and where a mapping's value stands, a sequence in
the mapping's own column. -/
def node : Nat → Bool → Bool → Reading Node
  | 0, _, _ => throw { problem := "document is nested too deeply" }
  | n + 1, isBlock, isIndentless => do
    let t ← peek
    match t.lexeme with
    | .alias name =>
      advance
      aliased t.line name
    | _ =>
      let ps ← properties
      let t ← peek
      let tag ← tagOf ps
      match t.lexeme, isBlock with
      | .scalar isPlain text, _ =>
        advance
        scalar ps tag isPlain text
      | .flowSequenceStart, _ =>
        advance
        let number? ← reserve ps
        let items ← flowItems n true t.line []
        keep number? (.seq ps.line (if tag = "" then "!!seq" else tag) items)
      | .flowMappingStart, _ =>
        advance
        let number? ← reserve ps
        let entries ← flowEntries n true t.line []
        keep number? (.map ps.line (if tag = "" then "!!map" else tag) entries)
      | .blockSequenceStart, true =>
        advance
        let number? ← reserve ps
        let items ← blockItems n false t.line []
        keep number? (.seq ps.line (if tag = "" then "!!seq" else tag) items)
      | .blockMappingStart, true =>
        advance
        let number? ← reserve ps
        let entries ← blockEntries n t.line []
        keep number? (.map ps.line (if tag = "" then "!!map" else tag) entries)
      | lexeme, _ =>
        if isIndentless && lexeme == .blockEntry then
          let number? ← reserve ps
          let items ← blockItems n true t.line []
          keep number? (.seq ps.line (if tag = "" then "!!seq" else tag) items)
        else if ps.anchor?.isSome || ps.tag?.isSome then scalar ps tag true ""
        else fail ps.line t "did not find expected node content"

/-- The items of a block sequence, after those read so far, last first. -/
def blockItems : Nat → Bool → Nat → List Node → Reading (List Node)
  | 0, _, _, _ => throw { problem := "document is nested too deeply" }
  | n + 1, isIndentless, start, items => do
    let t ← peek
    match t.lexeme with
    | .blockEntry =>
      advance
      let next ← peek
      let item ←
        if endsBlockItem isIndentless next.lexeme then pure (Node.absent t.line)
        else node n true false
      blockItems n isIndentless start (item :: items)
    | lexeme =>
      if isIndentless then return items.reverse
      else if lexeme == .blockEnd then
        advance
        return items.reverse
      else fail start t "did not find expected '-' indicator"

/-- The entries of a block mapping, after those read so far, last first. -/
def blockEntries : Nat → Nat → List Entry → Reading (List Entry)
  | 0, _, _ => throw { problem := "document is nested too deeply" }
  | n + 1, start, entries => do
    let t ← peek
    match t.lexeme with
    | .key =>
      advance
      let next ← peek
      let key ←
        if endsBlockPart next.lexeme then pure (Node.absent t.line) else node n true true
      let value ← blockValue n
      blockEntries n start (.mk key value :: entries)
    | .blockEnd =>
      advance
      return entries.reverse
    | _ => fail start t "did not find expected key"

/-- The value of an entry of a block mapping. -/
def blockValue : Nat → Reading Node
  | 0 => throw { problem := "document is nested too deeply" }
  | n + 1 => do
    let t ← peek
    if t.lexeme == .value then
      advance
      let next ← peek
      if endsBlockPart next.lexeme then return Node.absent t.line else node n true true
    else return Node.absent t.line

/-- The items up to the closing bracket, after those read so far, last first. An item may be
a mapping of one entry. -/
def flowItems : Nat → Bool → Nat → List Node → Reading (List Node)
  | 0, _, _, _ => throw { problem := "document is nested too deeply" }
  | n + 1, isFirst, start, items => do
    let t ← peek
    if t.lexeme == .flowSequenceEnd then
      advance
      return items.reverse
    else if !isFirst && t.lexeme != .flowEntry then
      fail start t "did not find expected ',' or ']'"
    else
      if !isFirst then advance
      let t ← peek
      match t.lexeme with
      | .flowSequenceEnd =>
        advance
        return items.reverse
      | .key =>
        advance
        let next ← peek
        let key ←
          if next.lexeme == .value || endsFlowPart .flowSequenceEnd next.lexeme then do
            advance
            pure (Node.absent next.line)
          else node n false false
        let value ← flowValue n .flowSequenceEnd
        flowItems n false start (.map t.line "!!map" [.mk key value] :: items)
      | _ =>
        let item ← node n false false
        flowItems n false start (item :: items)

/-- The entries up to the closing brace, after those read so far, last first. -/
def flowEntries : Nat → Bool → Nat → List Entry → Reading (List Entry)
  | 0, _, _, _ => throw { problem := "document is nested too deeply" }
  | n + 1, isFirst, start, entries => do
    let t ← peek
    if t.lexeme == .flowMappingEnd then
      advance
      return entries.reverse
    else if !isFirst && t.lexeme != .flowEntry then
      fail start t "did not find expected ',' or '\x7d'"
    else
      if !isFirst then advance
      let t ← peek
      match t.lexeme with
      | .flowMappingEnd =>
        advance
        return entries.reverse
      | .key =>
        advance
        let next ← peek
        let key ←
          if next.lexeme == .value || endsFlowPart .flowMappingEnd next.lexeme then
            pure (Node.absent next.line)
          else node n false false
        let value ← flowValue n .flowMappingEnd
        flowEntries n false start (.mk key value :: entries)
      | _ =>
        let key ← node n false false
        let next ← peek
        flowEntries n false start (.mk key (Node.absent next.line) :: entries)

/-- The value of an entry in brackets or braces. -/
def flowValue : Nat → Lexeme → Reading Node
  | 0, _ => throw { problem := "document is nested too deeply" }
  | n + 1, closing => do
    let t ← peek
    if t.lexeme == .value then
      advance
      let next ← peek
      if endsFlowPart closing next.lexeme then return Node.absent next.line
      else node n false false
    else return Node.absent t.line
end

/-! ## Documents -/

/-- What the handles stand for that need no directive. -/
def standardHandles : List (String × String) := [("!", "!"), ("!!", standardSet)]

/-- Reads directives, given whether a version was given already; at most so many. -/
def directives : Nat → Bool → Reading Unit
  | 0, _ => pure ()
  | n + 1, hasVersion => do
    let t ← peek
    match t.lexeme with
    | .version major minor =>
      if hasVersion then fail 1 t "found duplicate %YAML directive"
      else if major ≠ 1 || minor ≠ 1 then fail 1 t "found incompatible YAML document"
      else
        advance
        directives n true
    | .tagHandle handle expansion =>
      if (← get).handles.any fun (h, _) => h == handle then
        fail 1 t "found duplicate %TAG directive"
      else
        modify fun s => { s with handles := s.handles ++ [(handle, expansion)] }
        advance
        directives n hasVersion
    | _ => pure ()

/-- Whether a token cannot start the content of a document. -/
def endsDocument : Lexeme → Bool
  | .version _ _ | .tagHandle _ _ | .documentStart | .documentEnd | .streamEnd => true
  | _ => false

/-- Whether a token starts a document with a marker or directives. -/
def startsDocument : Lexeme → Bool
  | .version _ _ | .tagHandle _ _ | .documentStart => true
  | _ => false

/-- Reads what comes before the content of a document that starts with directives or a
marker. -/
def preamble (depth : Nat) : Reading Unit := do
  directives depth false
  let t ← peek
  if t.lexeme == .documentStart then advance
  else fail 1 t "did not find expected <document start>"

/-- Reads the first document, if there is one, and looks at the token behind it. -/
def firstDocument (depth : Nat) : Reading (Option Node) := do
  let t ← peek
  if t.lexeme == .streamEnd then return none
  else
    let isMarked := startsDocument t.lexeme
    if isMarked then preamble depth
    modify fun s => { s with handles := s.handles ++ standardHandles }
    let t ← peek
    let root ←
      if isMarked && endsDocument t.lexeme then pure (Node.absent t.line)
      else node depth true false
    discard peek
    return some root

end Reading

/-- Reads the first document of a text, nothing if the text holds none. -/
def read (text : String) : Except Fault (Option Document) :=
  let stream := Stream.ofText text
  match (Reading.firstDocument (16 * stream.size)).run { stream } with
  | .error f => .error f
  | .ok (none, _) => .ok none
  | .ok (some root, s) =>
    .ok (some
      { root, anchored := s.anchored, size := (s.aliases + 1) * stream.size })

end Generics.Yaml
