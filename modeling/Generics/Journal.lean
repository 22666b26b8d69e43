/-
# Which records are logged

A record has a level, a message and attributes; the logger it goes to has a context of
attributes and groups. Records from warnings on always pass. Below that, a record passes only
if it belongs to a section that is switched on, by the context of the logger or by an
attribute of its own. A section belongs to a name that is switched on if it starts with that
name.
-/

namespace Generics.Journal

/-- The sections that are switched on. -/
def sections : List String := ["subtype", "capture", "solver", "universe", "bind", "cli"]

/-- The level from which on records always pass. -/
def warning : Int := 4

/-- A key with its value. -/
abbrev Attr := String × String

/-- What a logger puts before the attributes of its records. -/
inductive Context
  | attr (a : Attr)
  | group (name : String)
deriving DecidableEq, Repr

/-- A record. -/
structure Record where
  level : Int
  message : String
  attrs : List Attr := []
deriving DecidableEq, Repr

/-- Whether an attribute names a section that is switched on. -/
def isEnabledSection (a : Attr) : Bool :=
  a.1 == "section" && sections.any fun name => a.2.startsWith name

/-- The attribute that a context is. -/
def Context.attr? : Context → Option Attr
  | .attr a => some a
  | .group _ => none

/-- Whether a record passes with a logger of the given context. -/
def passes (context : List Context) (r : Record) : Bool :=
  warning ≤ r.level || (context.filterMap Context.attr?).any isEnabledSection
    || r.attrs.any isEnabledSection

/-- An attribute as text. -/
def renderAttr (a : Attr) : String := " " ++ a.1 ++ "=" ++ a.2

/-- A context as text; a group without a name is none. -/
def Context.render : Context → String
  | .attr a => renderAttr a
  | .group name => if name.isEmpty then "" else " group=\"" ++ name ++ "\""

/-- The line of a record. -/
def line (context : List Context) (r : Record) : String :=
  r.message ++ String.join (context.map Context.render) ++ String.join (r.attrs.map renderAttr)

/-- The lines that a record leaves in a log that is open from the given level on. -/
def lines (least : Int) (context : List Context) (r : Record) : List String :=
  if least ≤ r.level && passes context r then [line context r] else []

end Generics.Journal
