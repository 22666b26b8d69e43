/-
# Inferring arguments

Given a target type and a declaration, find arguments with which the declaration is below the
target, as when a value of the target type is made from the declaration without spelling its
arguments out.
-/

import Generics.Inference.Search

namespace Generics.Inference

/-- An inference that succeeded. -/
structure Inferred where
  target : Ty
  decl : String
  /-- The declaration applied to one inferred argument for each parameter. -/
  result : Nominal
  /-- Whether no other arguments are known to be possible. -/
  unique : Bool
  effort : Effort
deriving DecidableEq

/-- The declaration applied to its own parameters. -/
def generic (decl : String) (params : List TypeVar) : Query Nominal :=
  Query.build decl (params.map fun v => .type (.var (.declared v)))

/-- Infers arguments for a declaration so that it is below the target. Solutions that were found
count even if the search ran away after them. -/
def infer (s : Setting) (target : Ty) (decl : String) : Query Inferred := do
  let params ← s.params decl
  let seed ← generic decl params
  let goal : Constraint := { lhs := seed.toTy, rel := .below, rhs := target }
  let (outcome, effort) ← search s ((Problem.start s params).push [goal])
  match outcome.solutions with
  | some types =>
    let result ← Query.build decl (types.map .type)
    pure { target, decl, result, unique := !outcome.ambiguous, effort }
  | none => throw (outcome.failure.getD (.incomplete []))

end Generics.Inference
