/-
# Tags of YAML nodes

A tag says what kind of value a node stands for. Tags of the standard set are written with two
exclamation marks. A node without a tag gets one: `!!seq` or `!!map` by its form, `!!str` for
a scalar in quotes or a block, and for a plain scalar the first of these that its text is:

| tag | texts |
| --- | --- |
| `!!null` | `~`, `null`, nothing |
| `!!bool` | `true`, `false` |
| `!!float` | `.nan`, `.inf`, `-.inf` |
| `!!merge` | `<<` |
| `!!timestamp` | a day, a day and a time |
| `!!int` | a whole number of 64 bits |
| `!!float` | a decimal fraction |
| `!!str` | any |

A scalar with a tag has to be a text of that kind, while any text can be a `!!str` and what a tag
outside the table stands for. A whole number of 63 bits and a sign is also a `!!float`.
-/

import Generics.Text.Base64
import Generics.Text.Decimal
import Generics.Text.Glyph
import Generics.Text.Numeral
import Generics.Text.Timestamp
import Generics.Yaml.Cursor

namespace Generics.Yaml

open Generics.Text

/-- The long form of what two exclamation marks stand for. -/
def standardSet : String := "tag:yaml.org,2002:"

/-- The short form of a tag. -/
def shortTag (tag : String) : String :=
  if tag.startsWith standardSet then
    "!!" ++ String.ofList (tag.toList.drop standardSet.length)
  else tag

/-- Texts that stand for nothing. -/
def nullTexts : List String := ["", "~", "null", "Null", "NULL"]

/-- Texts that stand for truth values. -/
def boolTexts : List String := ["true", "True", "TRUE", "false", "False", "FALSE"]

/-- Texts that stand for special numbers. -/
def specialFloatTexts : List String :=
  [".nan", ".NaN", ".NAN", ".inf", ".Inf", ".INF", "+.inf", "+.Inf", "+.INF",
    "-.inf", "-.Inf", "-.INF"]

/-- Whether characters are a whole number with the sign behind the mark of its base. -/
def isMarkedInt : List Char → Bool
  | '0' :: 'b' :: cs => (Numeral.signedIn 2 cs).isOk
  | '0' :: 'o' :: cs => (Numeral.signedIn 8 cs).isOk
  | _ => false

/-- Whether characters are a whole number of 64 bits, with or without a sign. -/
def isInt (cs : List Char) : Bool :=
  (Numeral.signed cs).isOk || (Numeral.unsigned cs).isOk

/-- Whether characters, without their underscores, are a whole number that takes all 64 bits. -/
def isWide (cs : List Char) : Bool :=
  let bare := cs.filter (· != '_')
  !(Numeral.signed bare).isOk && (Numeral.unsigned bare).isOk

/-- The kind of a text that starts like a number. Underscores are left out of numbers that do
not start with a point. A timestamp is not looked for if another kind is asked for. -/
def numberTag (asked : String) (first : Char) (cs : List Char) : String :=
  let bare := cs.filter (· != '_')
  if first == '.' then if Decimal.isGroupedNumber cs then "!!float" else "!!str"
  else if (asked == "" || asked == "!!timestamp") && Timestamp.isTimestamp cs then "!!timestamp"
  else if isInt bare then "!!int"
  else if Decimal.isNumber bare then "!!float"
  else if isMarkedInt bare then "!!int"
  else "!!str"

/-- The kind of a text, given the tag that is asked for, if any. -/
def kindOf (asked text : String) : String :=
  if asked = "!!str" then "!!str"
  else if text ∈ nullTexts then "!!null"
  else if text ∈ boolTexts then "!!bool"
  else if text ∈ specialFloatTexts then "!!float"
  else match text.toList with
    | c :: cs =>
      if c.isDigit || c == '+' || c == '-' || c == '.' then numberTag asked c (c :: cs)
      else "!!str"
    | [] => "!!str"

/-- The tag of a plain scalar that has none. -/
def plainTag (text : String) : String := if text = "<<" then "!!merge" else kindOf "" text

/-- Tags whose texts are checked. -/
def checkedTags : List String :=
  ["!!str", "!!bool", "!!int", "!!float", "!!null", "!!timestamp"]

/-- What a scalar stands for. -/
inductive Meaning
  | null
  /-- A text. -/
  | text (value : String)
  /-- A value of another kind, as it is written. -/
  | other (written : String)
deriving DecidableEq, Repr

/-- What the text of a scalar stands for under its tag. -/
def meaning (tag text : String) : Except Fault Meaning :=
  if tag ∈ checkedTags then
    let kind := kindOf tag text
    if tag = "!!str" then .ok (.text text)
    else if kind = tag then .ok (if kind = "!!null" then .null else .other text)
    else if tag = "!!float" && kind = "!!int" && !isWide text.toList then .ok (.other text)
    else .error { problem := "cannot decode " ++ kind ++ " `" ++ text ++ "` as a " ++ tag }
  else if tag = "!!binary" then
    match Base64.decode? text.toList with
    | some bytes => .ok (.text (Glyph.textOf (Glyph.decode bytes)))
    | none => .error { problem := "!!binary value contains invalid base64 data" }
  else .ok (.text text)

end Generics.Yaml
