/-
# Well-formed types

A type respects the declarations it is built from when, everywhere in it,

- no parameter of an applied declaration is bounded by itself;
- an applied declaration has no arguments, or as many as its declaration has parameters;
- no argument is a primitive, and the arguments are well-formed, with the bounds of wildcards;
- each argument is within the bound of its parameter, where the arguments (wildcards captured)
  take the place of the parameters; for a captured wildcard this means that its lower bound is
  below its upper bound;
- the lower bound of a captured variable is below its upper bound.

The first violation, in this order and from left to right, is the failure.
-/

import Generics.Query.Subtyping

namespace Generics

namespace Setting

open Query

/-- The failure that an argument does not fit its parameter. -/
def outOfBounds {α : Type} (n : Nominal) (arg : Arg) (p : TypeVar) : Query α :=
  malformed n ("type argument " ++ arg.render ++ " is not within bounds of type variable "
    ++ p.name)

/-- Whether the bounds of a captured variable fit together. -/
def capturedFits (s : Setting) (id : Nat) : Query Bool := do
  let m ← get
  s.below (m.lower id) (m.upper id)

/-- Checks the arguments against the bounds of their parameters: each given argument with the
one after capture. -/
def checkBounds (s : Setting) (n : Nominal) (σ : Subst) :
    List TypeVar → List Arg → List Arg → Query Unit
  | p :: ps, .type t :: given, _ :: captured => do
    let bound ← replace σ (s.catalog.upper p)
    if ← s.below t bound then s.checkBounds n σ ps given captured
    else outOfBounds n (.type t) p
  | p :: ps, .wild u l :: given, .type (.var (.captured id)) :: captured => do
    if ← s.capturedFits id then s.checkBounds n σ ps given captured
    else outOfBounds n (.wild u l) p
  | _, _, _ => pure ()

/-- Checks the arguments of an applied declaration against its parameters. -/
def checkFit (s : Setting) (n : Nominal) (params : List TypeVar) : Query Unit := do
  let captured ← s.capture n
  let σ ← s.assignment captured
  s.checkBounds n σ params n.args captured.args

/-- The parameters of an applied declaration, none of which may be bounded by itself. -/
def checkedParams (s : Setting) (n : Nominal) : Query (List TypeVar) := do
  let params ← s.params n.decl
  match params.find? s.catalog.selfBounded with
  | some p => malformed n ("type variable " ++ p.name ++ " has a cyclic bound")
  | none => pure params

end Setting

open Query

mutual
/-- Checks that a type is well-formed. -/
def Ty.check (s : Setting) : Ty → Query Unit
  | .prim _ => pure ()
  | .null => pure ()
  | .nominal site decl args => do
    let n : Nominal := ⟨site, decl, args⟩
    let params ← s.checkedParams n
    if args.isEmpty then pure ()
    else if args.length ≠ params.length then wrongCount n params.length
    else do
      Arg.checkAll s n args
      s.checkFit n params
  | .array elem => elem.check s
  | .inter _ members => Ty.checkAll s members
  | .var (.declared _) => pure ()
  | .var (.captured id) => do
    if ← s.capturedFits id then pure ()
    else do
      let m ← get
      throw (.malformed (Var.captured id).name ("lower bound " ++ (m.lower id).render
        ++ " is not a subtype of upper bound " ++ (m.upper id).render))

/-- Checks that some types are well-formed. -/
def Ty.checkAll (s : Setting) : List Ty → Query Unit
  | [] => pure ()
  | t :: ts => do
    t.check s
    Ty.checkAll s ts

/-- Checks that the arguments of an applied declaration are well-formed. -/
def Arg.checkAll (s : Setting) (n : Nominal) : List Arg → Query Unit
  | [] => pure ()
  | a :: as => do
    a.check s n
    Arg.checkAll s n as

/-- Checks that an argument of an applied declaration is well-formed. -/
def Arg.check (s : Setting) (n : Nominal) : Arg → Query Unit
  | .type (.prim p) =>
    malformed n ("primitive type " ++ p.render ++ " cannot be a type argument")
  | .type t => t.check s
  | .wild upper lower => do
    upper.check s
    lower.check s
end

end Generics
