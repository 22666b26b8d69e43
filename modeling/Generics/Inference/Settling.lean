/-
# Settling unknowns

When no constraint is pending, unknowns are settled from what was filed with them:

- an equality with a type that mentions no unknown is a solution; solutions take the place of
  the unknowns in all filed constraints, and the constraints filed with a solved unknown are
  pending again, now on its solution;
- failing that, a solution is picked among the bounds: the first lower bound that is within
  all other bounds, else the first such upper bound. Bounds that mention unknowns are not
  judged, so this may miss solutions, and another bound might have done as well.
-/

import Generics.Inference.Reduction

namespace Generics.Inference

namespace Unknown

/-- Makes the first equality with a type that mentions no unknown the solution. -/
def promote (mentions : Ty → Bool) (u : Unknown) : Unknown :=
  if u.closed || u.solution.isSome then u
  else match u.equal.find? fun c => !mentions c.rhs with
    | none => u
    | some c =>
      { u with solution := some c.rhs, equal := u.equal.eraseP fun c => !mentions c.rhs }

/-- Whether a solution is found but not yet handed on. -/
def isRipe (u : Unknown) : Bool := !u.closed && u.solution.isSome

/-- Replaces solved unknowns in the filed constraints, and closes the unknown if it is solved:
its constraints are then handed on. -/
def hand (σ : Subst) (u : Unknown) : Query (Unknown × List Constraint) :=
  if u.closed then pure (u, [])
  else do
    let upper ← Constraint.replaceAll σ u.upper
    let equal ← Constraint.replaceAll σ u.equal
    let lower ← Constraint.replaceAll σ u.lower
    if u.solution.isSome then
      pure ({ u with upper := [], equal := [], lower := [], closed := true },
        upper ++ equal ++ lower)
    else pure ({ u with upper, equal, lower }, [])

/-- Hands on the constraints of all unknowns in order. -/
def handAll (σ : Subst) : List Unknown → Query (List Unknown × List Constraint)
  | [] => pure ([], [])
  | u :: us => do
    let (u', cs) ← u.hand σ
    let (us', more) ← handAll σ us
    pure (u' :: us', cs ++ more)

/-- The first pair of a lower and an upper bound that do not fit, as a constraint. -/
def clash? (s : Setting) (u : Unknown) : Query (Option Constraint) := do
  let pairs := u.lower.flatMap fun low => u.upper.map fun high => (low, high)
  let found ← Query.first? (fun pair => do return !(← s.below pair.1.rhs pair.2.rhs)) pairs
  return found.map fun pair => pair.1.child pair.1.rhs .below pair.2.rhs

/-- Whether a type is below all upper and above all lower bounds. -/
def admits (s : Setting) (u : Unknown) (t : Ty) : Query Bool :=
  Query.both (Query.all (fun high => s.below t high.rhs) u.upper)
    (Query.all (fun low => s.below low.rhs t) u.lower)

/-- Whether bounds are there and can be judged. -/
def hasClearBounds (mentions : Ty → Bool) (u : Unknown) : Bool :=
  !u.closed && u.solution.isNone && !(u.lower ++ u.upper).isEmpty
    && (u.lower ++ u.upper).all fun c => !mentions c.rhs

/-- Picks a solution among the bounds, or fails if they do not fit together. -/
def pick (s : Setting) (mentions : Ty → Bool) (u : Unknown) : Query (Except Failure Unknown) :=
  if u.hasClearBounds mentions then do
    match ← u.clash? s with
    | some c => pure (.error c.failure)
    | none =>
      match ← Query.first? (fun c => u.admits s c.rhs) (u.lower ++ u.upper) with
      | some c => pure (.ok { u with solution := some c.rhs, upper := [], lower := [] })
      | none => pure (.ok u)
  else pure (.ok u)

/-- Picks solutions for the unknowns in order, up to the first failure. -/
def pickAll (s : Setting) (mentions : Ty → Bool) :
    List Unknown → Query (Except Failure (List Unknown))
  | [] => pure (.ok [])
  | u :: us => do
    match ← u.pick s mentions with
    | .error f => pure (.error f)
    | .ok u' => return (← pickAll s mentions us).map (u' :: ·)

end Unknown

namespace Problem

/-- Makes equalities solutions where possible. -/
def promote (p : Problem) : Problem :=
  { p with unknowns := p.unknowns.map (Unknown.promote p.mentions) }

/-- Hands on the constraints of the solved unknowns. -/
def hand (p : Problem) : Query Problem := do
  let (unknowns, cs) ← Unknown.handAll (p.solutionsWhere fun u => u.solution.isSome) p.unknowns
  pure { p with unknowns, pending := p.pending ++ cs }

/-- Makes equalities solutions and hands on constraints for as long as there are solutions to
hand on, at most so many times. -/
def settle : Nat → Problem → Query Problem
  | 0, p => pure p
  | n + 1, p =>
    if p.promote.unknowns.any Unknown.isRipe then do settle n (← p.promote.hand)
    else pure p.promote

/-- Picks solutions among bounds. -/
def pick (s : Setting) (p : Problem) : Query (Except Failure Problem) := do
  return (← Unknown.pickAll s p.mentions p.unknowns).map fun unknowns => { p with unknowns }

/-- Whether a solution waits to be handed on. -/
def isRipe (p : Problem) : Bool := p.unknowns.any Unknown.isRipe

end Problem

end Generics.Inference
