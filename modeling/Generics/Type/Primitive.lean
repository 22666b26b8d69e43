/-
# Primitive types

A primitive is a fixed kind of value, known by its number. Eight of them have a name;
a number without a name is a primitive all the same and is written with its number.
-/

namespace Generics

/-- A fixed kind of value. -/
structure Primitive where
  /-- Its number. -/
  code : UInt8
deriving DecidableEq, Repr

namespace Primitive

/-- The primitives that have a name. -/
def spellings : List (Primitive × String) :=
  [ (⟨1⟩, "boolean"), (⟨2⟩, "byte"), (⟨3⟩, "char"), (⟨4⟩, "short"),
    (⟨5⟩, "int"), (⟨6⟩, "long"), (⟨7⟩, "float"), (⟨8⟩, "double") ]

/-- The primitive of a name. -/
def named? (name : String) : Option Primitive :=
  (spellings.find? fun entry => entry.2 == name).map Prod.fst

/-- The name of a primitive, or its number in words. -/
def render (p : Primitive) : String :=
  match spellings.find? fun entry => entry.1 == p with
  | some entry => entry.2
  | none => "primitive(" ++ Nat.repr p.code.toNat ++ ")"

end Primitive

end Generics
