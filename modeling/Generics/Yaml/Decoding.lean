/-
# Values of YAML documents

Decodes nodes into texts, lists and records. What does not have the form asked for is a misfit
with its line; decoding goes on behind it, so that all misfits are found. A fault ends it.

An alias is decoded as the node that it repeats. A document may not repeat itself without end,
and not so much that nearly all of what is decoded is repetition.

A mapping under the key `<<`, or each of a list of them, gives a record the fields that it does
not have already.
-/

import Generics.Text.Glyph
import Generics.Text.Quoted
import Generics.Yaml.Reader

namespace Generics.Yaml

/-! ## Misfits -/

/-- Why a node does not have the form asked for. -/
inductive Misfit
  /-- A node of another kind than the type asked for, with the text of a scalar. -/
  | mismatch (line : Nat) (tag text type : String)
  /-- A key that a mapping has already. -/
  | repeated (line : Nat) (key : String) (first : Nat)
  /-- A key that is no field of the type asked for. -/
  | unknown (line : Nat) (field type : String)
  /-- A key in another form for a field that is set already. -/
  | again (line : Nat) (field type : String)
deriving DecidableEq, Repr

/-- The start of a text in a misfit: at most ten bytes, else the first seven. -/
def excerpt (text : String) : String :=
  if text.utf8ByteSize ≤ 10 then text
  else Glyph.textOf (Glyph.decode (text.toUTF8.toList.take 7)) ++ "..."

/-- The wording of a misfit. -/
def Misfit.message [Alphabet] : Misfit → String
  | .mismatch line tag text type =>
    "line " ++ Nat.repr line ++ ": cannot unmarshal " ++ tag
      ++ (if tag = "!!seq" || tag = "!!map" then "" else " `" ++ excerpt text ++ "`")
      ++ " into " ++ type
  | .repeated line key first =>
    "line " ++ Nat.repr line ++ ": mapping key " ++ Text.quoted key ++ " already defined at line "
      ++ Nat.repr first
  | .unknown line field type =>
    "line " ++ Nat.repr line ++ ": field " ++ field ++ " not found in type " ++ type
  | .again line field type =>
    "line " ++ Nat.repr line ++ ": field " ++ field ++ " already set in type " ++ type

/-- The misfit that a node is not of the type asked for. -/
def Node.misfit (n : Node) (type : String) : Misfit :=
  .mismatch n.line n.tag
    (match n with
      | .scalar _ _ text => text
      | _ => "")
    type

/-- What keys are told apart by: their form, and the text of a scalar or the name of an alias. -/
def Node.identity : Node → Nat × String
  | .scalar _ _ text => (0, text)
  | .seq _ _ _ => (1, "")
  | .map _ _ _ => (2, "")
  | .alias _ name _ _ => (3, name)

/-- The misfits that keys are given twice. -/
def repeatedKeys : List Entry → List Misfit
  | [] => []
  | e :: es =>
    (es.filter fun later => later.key.identity == e.key.identity).map (fun later =>
      .repeated later.key.line later.key.identity.2 e.key.line) ++ repeatedKeys es

/-! ## Steps of decoding -/

/-- What came up so far. -/
structure Tally where
  /-- The misfits, newest first. -/
  misfits : List Misfit := []
  /-- The nodes decoded, the document being the first one, and those of them that were repeated by
  aliases. -/
  decoded : Nat := 1
  repeated : Nat := 0

/-- Steps of decoding. -/
abbrev Decoding := StateT Tally (Except Fault)

/-- Where a node is decoded. -/
structure Scope where
  document : Document
  /-- The numbers of the aliases that led here. -/
  followed : List Nat := []

namespace Decoding

/-- Whether too much of what was decoded is repetition: more than 99 of 100 nodes, which goes
down to one of ten for large documents. -/
def isExcessive (decoded repeated : Nat) : Bool :=
  100 < repeated && 1000 < decoded
    && (if decoded ≤ 400000 then decoded * 99 < repeated * 100
      else if 4000000 ≤ decoded then decoded < repeated * 10
      else decoded * (99 * 3600000 - 89 * (decoded - 400000)) < repeated * 360000000)

/-- Counts a node. -/
def visit (s : Scope) : Decoding Unit := do
  let t ← get
  let t :=
    { t with
      decoded := t.decoded + 1
      repeated := if s.followed.isEmpty then t.repeated else t.repeated + 1 }
  if isExcessive t.decoded t.repeated then
    throw { problem := "document contains excessive aliasing" }
  else set t

/-- Notes misfits. -/
def note (misfits : List Misfit) : Decoding Unit :=
  modify fun t => { t with misfits := misfits.reverse ++ t.misfits }

/-- The node that a node stands for, and where it is decoded. -/
def follow (s : Scope) (n : Node) : Decoding (Scope × Node) := do
  visit s
  match n with
  | .alias _ name number target =>
    if s.followed.contains number then
      throw { problem := "anchor '" ++ name ++ "' value contains itself" }
    else
      let s := { s with followed := number :: s.followed }
      visit s
      return (s, s.document.anchored[target]?.getD default)
  | _ => return (s, n)

/-- What a scalar stands for. -/
def scalarMeaning (tag text : String) : Decoding Meaning :=
  match meaning tag text with
  | .ok m => pure m
  | .error f => throw f

/-- Notes that a collection is not of the type asked for, or the keys that it has twice. -/
def noteMisfit (n : Node) (type : String) : Decoding Unit :=
  match n with
  | .map _ _ entries =>
    match repeatedKeys entries with
    | [] => note [n.misfit type]
    | misfits => note misfits
  | _ => note [n.misfit type]

/-! ## Texts and lists -/

/-- Decodes a text, nothing for null. -/
def text (s : Scope) (n : Node) : Decoding (Option String) := do
  let (_, n) ← follow s n
  match n with
  | .scalar _ tag value =>
    match ← scalarMeaning tag value with
    | .null => return none
    | .text value => return some value
    | .other written => return some written
  | _ =>
    noteMisfit n "string"
    return none

/-- Decodes a list, leaving out the items that decode to nothing. Null is the empty list. -/
def list {α : Type} (type : String) (item : Scope → Node → Decoding (Option α)) (s : Scope)
    (n : Node) : Decoding (Option (List α)) := do
  let (s, n) ← follow s n
  match n with
  | .seq _ _ items => return some ((← items.mapM (item s)).filterMap id)
  | .scalar _ tag value =>
    if (← scalarMeaning tag value) = .null then return some []
    else
      noteMisfit n type
      return none
  | _ =>
    noteMisfit n type
    return none

/-! ## Records -/

/-- A field of a record: its name, and how its value changes the record. -/
structure Field (α : Type) where
  name : String
  decode : Scope → Node → α → Decoding α

/-- A field whose value replaces a part of the record. -/
def field {α β : Type} (name : String) (decode : Scope → Node → Decoding (Option β))
    (set : β → α → α) : Field α :=
  { name
    decode := fun s n a => do
      match ← decode s n with
      | some b => return set b a
      | none => return a }

/-- A kind of records. -/
structure RecordType (α : Type) where
  name : String
  fields : List (Field α)
  start : α

/-- The value under the key for merging. -/
def merged? (entries : List Entry) : Option Node :=
  (entries.filter fun e => e.key.isMerge).getLast?.map Entry.value

/-- Decodes the entries of a record other than merged ones, given the fields that are set. If
keys are given that must not be taken from here, they are left out, and further ones added. -/
def ownEntries {α : Type} (r : RecordType α) (s : Scope) :
    List Entry → List String → Option (List String) → α → Decoding (α × Option (List String))
  | [], _, taken?, a => return (a, taken?)
  | e :: es, set, taken?, a => do
    if e.key.isMerge then ownEntries r s es set taken? a
    else match ← text s e.key with
      | none => ownEntries r s es set taken? a
      | some key =>
        if (taken?.getD []).contains key then ownEntries r s es set taken? a
        else
          let taken? := taken?.map (key :: ·)
          match r.fields.find? fun f => f.name == key with
          | none =>
            note [.unknown e.key.line key r.name]
            ownEntries r s es set taken? a
          | some f =>
            if set.contains key then
              note [.again e.key.line key r.name]
              ownEntries r s es set taken? a
            else
              let a ← f.decode s e.value a
              ownEntries r s es (key :: set) taken? a

/-- The keys of a mapping that are texts. -/
def keyTexts (s : Scope) : List Entry → Decoding (List String)
  | [] => return []
  | e :: es => do
    let (_, n) ← follow s e.key
    match n with
    | .scalar _ tag value =>
      match ← scalarMeaning tag value with
      | .text key => return key :: (← keyTexts s es)
      | _ => keyTexts s es
    | _ => keyTexts s es

/-- The fault that something other than mappings is merged. -/
def noMapping : Fault := { problem := "map merge requires map or sequence of maps as the value" }

/-- Whether a node is a mapping or repeats one. -/
def isMapping (s : Scope) : Node → Bool
  | .map _ _ _ => true
  | .alias _ _ _ target =>
    match s.document.anchored[target]? with
    | some (.map _ _ _) => true
    | _ => false
  | _ => false

mutual
/-- Decodes the entries of a record, its own ones before merged ones. -/
def entriesOf {α : Type} (r : RecordType α) :
    Nat → Scope → List Entry → Option (List String) → α → Decoding (α × Option (List String))
  | 0, _, _, _, _ => throw { problem := "document is nested too deeply" }
  | n + 1, s, entries, taken?, a => do
    let (a, taken?) ← ownEntries r s entries [] taken? a
    match merged? entries with
    | none => return (a, taken?)
    | some v =>
      let taken ← match taken? with
        | some taken => pure taken
        | none => keyTexts s entries
      let (a, taken) ← match v with
        | .seq _ _ items => mergeAll r n s items taken a
        | _ => mergeAll r n s [v] taken a
      return (a, taken?.map fun _ => taken)

/-- Decodes merged mappings one after the other; a key counts where it comes first. -/
def mergeAll {α : Type} (r : RecordType α) :
    Nat → Scope → List Node → List String → α → Decoding (α × List String)
  | 0, _, _, _, _ => throw { problem := "document is nested too deeply" }
  | _ + 1, _, [], taken, a => return (a, taken)
  | n + 1, s, v :: vs, taken, a => do
    if isMapping s v then
      let (inner, m) ← follow s v
      match m with
      | .map _ _ entries =>
        match repeatedKeys entries with
        | [] =>
          let (a, more?) ← entriesOf r n inner entries (some taken) a
          mergeAll r n s vs (more?.getD taken) a
        | misfits =>
          note misfits
          mergeAll r n s vs taken a
      | _ => mergeAll r n s vs taken a
    else throw noMapping
end

/-- Decodes a record, nothing for null. -/
def record {α : Type} (r : RecordType α) (s : Scope) (n : Node) : Decoding (Option α) := do
  let (s, n) ← follow s n
  match n with
  | .map _ _ entries =>
    match repeatedKeys entries with
    | [] =>
      let (a, _) ← entriesOf r s.document.size s entries none r.start
      return some a
    | misfits =>
      note misfits
      return none
  | .scalar _ tag value =>
    if (← scalarMeaning tag value) = .null then return none
    else
      noteMisfit n r.name
      return none
  | _ =>
    noteMisfit n r.name
    return none

/-- Decodes a document, and answers the misfits met. -/
def wholeDocument {α : Type} (decode : Scope → Node → Decoding α) (document : Document) :
    Except Fault (α × List Misfit) :=
  match (decode { document } document.root) {} with
  | .ok (a, t) => .ok (a, t.misfits.reverse)
  | .error f => .error f

end Decoding

end Generics.Yaml
