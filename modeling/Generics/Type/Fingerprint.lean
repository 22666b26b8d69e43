/-
# Fingerprints of types

A 64-bit number that depends only on the structure of a type, so that types of the same
structure have the same one. Names are mixed byte by byte (multiply by a fixed prime after
an exclusive or), the parts of a type by multiplying by 31 and adding. A compound type
never has the fingerprint 0.
-/

import Generics.Type.Basic

namespace Generics

namespace Fingerprint

/-- Mixes one byte in. -/
def mixByte (h : UInt64) (b : UInt8) : UInt64 := (h ^^^ b.toUInt64) * 1099511628211

/-- The start value with the tag of a form and the names that belong to it mixed in, each name
closed by a zero byte. -/
def ofNames (tag : UInt8) (names : List String) : UInt64 :=
  names.foldl (fun h name => mixByte (name.toUTF8.toList.foldl mixByte h) 0)
    (mixByte 14695981039346656037 tag)

/-- The fingerprint of a part mixed in after those before it. -/
def mixPart (h part : UInt64) : UInt64 := h * 31 + part

/-- Compound types never have the fingerprint 0. -/
def nonzero (h : UInt64) : UInt64 := if h == 0 then 1 else h

end Fingerprint

open Fingerprint

/-- The fingerprint of a variable: declared ones by declaration and name, captured ones by
number. -/
def Var.fingerprint : Var → UInt64
  | .declared v => ofNames 5 [v.decl, v.name]
  | .captured id => ofNames 6 [Nat.repr id]

mutual
/-- The fingerprint of a type. -/
def Ty.fingerprint : Ty → UInt64
  | .prim p => ofNames 1 [p.render]
  | .null => ofNames 8 []
  | .nominal _ decl args => nonzero (Arg.mixAll (ofNames 2 [decl]) args)
  | .array elem => nonzero (mixPart (ofNames 4 []) elem.fingerprint)
  | .inter _ members => nonzero (Ty.mixAll (ofNames 7 []) members)
  | .var v => v.fingerprint

/-- The fingerprint of an argument. -/
def Arg.fingerprint : Arg → UInt64
  | .type t => t.fingerprint
  | .wild upper lower =>
    nonzero (mixPart (mixPart (ofNames 3 []) upper.fingerprint) lower.fingerprint)

/-- The fingerprints of some types mixed in, in order. -/
def Ty.mixAll (h : UInt64) : List Ty → UInt64
  | [] => h
  | t :: ts => Ty.mixAll (mixPart h t.fingerprint) ts

/-- The fingerprints of some arguments mixed in, in order. -/
def Arg.mixAll (h : UInt64) : List Arg → UInt64
  | [] => h
  | a :: as => Arg.mixAll (mixPart h a.fingerprint) as
end

end Generics
