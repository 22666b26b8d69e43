/-
# Identity of occurrences

Two types are the same occurrence when they agree in every part, sites included. This is
equality of the data, and it is decidable: `Ty.sameOccurrence` compares part by part, and
`Ty.sameOccurrence_iff` says that it decides equality.
-/

import Generics.Type.Basic

namespace Generics

mutual
/-- Part by part comparison of two types. -/
def Ty.sameOccurrence : Ty → Ty → Bool
  | .prim p, .prim q => p == q
  | .null, .null => true
  | .nominal s d as, .nominal s' d' as' => s == s' && d == d' && Arg.sameOccurrenceAll as as'
  | .array a, .array b => a.sameOccurrence b
  | .inter s ms, .inter s' ms' => s == s' && Ty.sameOccurrenceAll ms ms'
  | .var v, .var w => v == w
  | _, _ => false

/-- Part by part comparison of two arguments. -/
def Arg.sameOccurrence : Arg → Arg → Bool
  | .type a, .type b => a.sameOccurrence b
  | .wild u l, .wild u' l' => u.sameOccurrence u' && l.sameOccurrence l'
  | _, _ => false

/-- Part by part comparison of two lists of types. -/
def Ty.sameOccurrenceAll : List Ty → List Ty → Bool
  | [], [] => true
  | a :: as, b :: bs => a.sameOccurrence b && Ty.sameOccurrenceAll as bs
  | _, _ => false

/-- Part by part comparison of two lists of arguments. -/
def Arg.sameOccurrenceAll : List Arg → List Arg → Bool
  | [], [] => true
  | a :: as, b :: bs => a.sameOccurrence b && Arg.sameOccurrenceAll as bs
  | _, _ => false
end

mutual
/-- **The comparison of types decides equality.** -/
theorem Ty.sameOccurrence_iff : ∀ a b : Ty, a.sameOccurrence b = true ↔ a = b
  | .prim p, b => by cases b <;> simp [Ty.sameOccurrence]
  | .null, b => by cases b <;> simp [Ty.sameOccurrence]
  | .nominal s d as, b => by
    cases b <;> simp [Ty.sameOccurrence, Arg.sameOccurrenceAll_iff as, and_assoc]
  | .array a, b => by cases b <;> simp [Ty.sameOccurrence, Ty.sameOccurrence_iff a]
  | .inter s ms, b => by cases b <;> simp [Ty.sameOccurrence, Ty.sameOccurrenceAll_iff ms]
  | .var v, b => by cases b <;> simp [Ty.sameOccurrence]

/-- The comparison of arguments decides equality. -/
theorem Arg.sameOccurrence_iff : ∀ a b : Arg, a.sameOccurrence b = true ↔ a = b
  | .type a, b => by cases b <;> simp [Arg.sameOccurrence, Ty.sameOccurrence_iff a]
  | .wild u l, b => by
    cases b <;> simp [Arg.sameOccurrence, Ty.sameOccurrence_iff u, Ty.sameOccurrence_iff l]

/-- The comparison of lists of types decides equality. -/
theorem Ty.sameOccurrenceAll_iff : ∀ as bs : List Ty, Ty.sameOccurrenceAll as bs = true ↔ as = bs
  | [], bs => by cases bs <;> simp [Ty.sameOccurrenceAll]
  | a :: as, bs => by
    cases bs <;>
      simp [Ty.sameOccurrenceAll, Ty.sameOccurrence_iff a, Ty.sameOccurrenceAll_iff as]

/-- The comparison of lists of arguments decides equality. -/
theorem Arg.sameOccurrenceAll_iff :
    ∀ as bs : List Arg, Arg.sameOccurrenceAll as bs = true ↔ as = bs
  | [], bs => by cases bs <;> simp [Arg.sameOccurrenceAll]
  | a :: as, bs => by
    cases bs <;>
      simp [Arg.sameOccurrenceAll, Arg.sameOccurrence_iff a, Arg.sameOccurrenceAll_iff as]
end

instance : DecidableEq Ty := fun a b => decidable_of_iff _ (Ty.sameOccurrence_iff a b)

instance : DecidableEq Arg := fun a b => decidable_of_iff _ (Arg.sameOccurrence_iff a b)

deriving instance DecidableEq for Nominal

end Generics
