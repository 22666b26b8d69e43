/-
# Equality of types

Two types are equal when they have the same shape: the same declaration with equal
arguments in order, equal bounds, components or members in order, the same primitive, the
same key of a variable. Sites and the bounds of variables play no part.

`Ty.equal` compares fingerprints first and shapes only if they agree.
-/

import Generics.Type.Fingerprint

namespace Generics

mutual
/-- Whether two types have the same shape. -/
def Ty.sameShape : Ty → Ty → Bool
  | .prim p, .prim q => p == q
  | .null, .null => true
  | .nominal _ d as, .nominal _ e bs => d == e && Arg.sameShapeAll as bs
  | .array a, .array b => a.sameShape b
  | .inter _ as, .inter _ bs => Ty.sameShapeAll as bs
  | .var v, .var w => v.key == w.key
  | _, _ => false

/-- Whether two arguments have the same shape. -/
def Arg.sameShape : Arg → Arg → Bool
  | .type a, .type b => a.sameShape b
  | .wild u l, .wild u' l' => u.sameShape u' && l.sameShape l'
  | _, _ => false

/-- Whether two lists of types have the same shapes in order. -/
def Ty.sameShapeAll : List Ty → List Ty → Bool
  | [], [] => true
  | a :: as, b :: bs => a.sameShape b && Ty.sameShapeAll as bs
  | _, _ => false

/-- Whether two lists of arguments have the same shapes in order. -/
def Arg.sameShapeAll : List Arg → List Arg → Bool
  | [], [] => true
  | a :: as, b :: bs => a.sameShape b && Arg.sameShapeAll as bs
  | _, _ => false
end

/-- Equality of types. -/
def Ty.equal (a b : Ty) : Bool := a.fingerprint == b.fingerprint && a.sameShape b

/-- Equality of arguments. -/
def Arg.equal (a b : Arg) : Bool := a.fingerprint == b.fingerprint && a.sameShape b

/-- Equality of applied declarations. -/
def Nominal.equal (a b : Nominal) : Bool := a.toTy.equal b.toTy

end Generics
