/-
# Subtyping

Whether one type is below another. In the order in which the rules are tried:

- `Null` is below everything, and one occurrence is below itself;
- between applied declarations the first must inherit from the second; a raw right side asks
  no more, a raw left side is below raw types only, and otherwise the left side is captured and
  seen as the declaration of the right side, whose arguments must contain those found there;
- a type is below an intersection if it is below every member, and an intersection is below a
  type if some member is; the empty intersection counts as the top declaration;
- a variable is below what its upper bound is below, and above what its lower bound is above;
- arrays of references vary with their components, arrays of primitives do not vary, and every
  array is below the declarations that the options list for that;
- primitives are below themselves only.

Bounds of variables may lead back to the variable. The comparison keeps the variables whose
bounds it went through, with the side, and does not go through one of them again.
-/

import Generics.Query.Capture

namespace Generics

/-- The side of a variable whose bound a comparison goes through. -/
inductive Side
  | upper
  | lower
deriving DecidableEq, Repr

/-- The variables whose bounds a comparison went through. -/
abbrev Trail := List (VarKey × Side)

namespace Setting

open Query

/-- Whether two types are equal, or each below the other. -/
def equivalentBy (sub : Ty → Ty → Query Bool) (a b : Ty) : Query Bool :=
  if a.equal b then pure true else both (sub a b) (sub b a)

/-- Whether an argument contains another one. -/
def containsBy (sub : Ty → Ty → Query Bool) : Arg → Arg → Query Bool
  | .wild upper lower, .wild upper' lower' => both (sub lower lower') (sub upper' upper)
  | .wild upper lower, .type t => both (sub lower t) (sub t upper)
  | .type _, .wild _ _ => pure false
  | .type t, .type t' => equivalentBy sub t' t

/-- Whether arguments contain others, one by one. -/
def containsAllBy (sub : Ty → Ty → Query Bool) : List Arg → List Arg → Query Bool
  | [], [] => pure true
  | outer :: outers, inner :: inners =>
    both (containsBy sub outer inner) (containsAllBy sub outers inners)
  | _, _ => pure false

/-- Whether an applied declaration is below another one. -/
def nominalBelowBy (s : Setting) (sub : Ty → Ty → Query Bool) (a b : Nominal) : Query Bool := do
  if ← s.inherits a.decl b.decl then
    if b.args.isEmpty then pure true
    else if ← s.isRaw a then pure false
    else match ← s.supertypeAs a b.decl with
      | none => pure false
      | some n =>
        if n.args.length = b.args.length then containsAllBy sub b.args n.args else pure false
  else pure false

/-- Whether an array is below another one, given their components. -/
def arrayBelowBy (sub : Ty → Ty → Query Bool) (a b : Ty) : Query Bool :=
  if a.isPrim || b.isPrim then pure (a == b) else sub a b

/-- Whether a declaration is one that every array is below. -/
def isArrayParent (s : Setting) (decl : String) (args : List Arg) : Bool :=
  args.isEmpty && s.options.arrayParents.contains decl

/-- Whether a type is below another one, with nesting up to the given depth and the variables
whose bounds were gone through. -/
def belowWithin (s : Setting) : Nat → Trail → Ty → Ty → Query Bool
  | 0, _, _, _ => throw .exhausted
  | depth + 1, trail, a, b =>
    let toLower : Query Bool :=
      match b with
      | .var w =>
        if trail.contains (w.key, .lower) then pure false
        else do s.belowWithin depth ((w.key, .lower) :: trail) a (← s.lower w)
      | _ => pure false
    if a = .null then pure true
    else if a = b then pure true
    else match a, b with
      | .nominal sa da aa, .nominal sb db ab =>
        s.nominalBelowBy (s.belowWithin depth []) ⟨sa, da, aa⟩ ⟨sb, db, ab⟩
      | _, .inter _ members => all (fun member => s.belowWithin depth trail a member) members
      | .inter _ [], _ => s.belowWithin depth trail .object b
      | .inter _ members, _ =>
        either (any (fun member => s.belowWithin depth trail member b) members) toLower
      | .var v, _ =>
        if a.equal b then pure true
        else if trail.contains (v.key, .upper) then toLower
        else either
          (do s.belowWithin depth ((v.key, .upper) :: trail) (← s.upper v) b)
          toLower
      | _, .var _ => toLower
      | .array elem, .array elem' => arrayBelowBy (s.belowWithin depth []) elem elem'
      | .array _, .nominal _ decl args => pure (s.isArrayParent decl args)
      | .array _, _ => pure false
      | _, _ => pure (a.equal b)

/-- Whether a type is below another one. -/
def below (s : Setting) (a b : Ty) : Query Bool := s.belowWithin s.depth [] a b

/-- Whether two types are equal, or each below the other. -/
def equivalent (s : Setting) (a b : Ty) : Query Bool := equivalentBy s.below a b

end Setting

end Generics
