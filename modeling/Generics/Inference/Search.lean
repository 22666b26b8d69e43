/-
# Searching for solutions

A problem is advanced by reducing its oldest pending constraint or, when none is pending, by
settling its unknowns. A constraint that asks for one out of several forks the problem: each
branch is the problem so far with one of them added, and the branches are searched in order.

All branches draw on one budget of reductions. When it is spent, the branch fails as a
runaway, and so does every fork above it.

The outcome of a fork is that of the first branch that is solved. It is ambiguous if another
branch is solved too, or if a branch was ambiguous; then the remaining branches are left out
unless the search is exhaustive. If no branch is solved, a branch that lacked information is
reported rather than one that met a contradiction.
-/

import Generics.Inference.Settling

namespace Generics.Inference

/-- What a search ends with. -/
structure Outcome where
  /-- The solutions of the unknowns in order, if they are solved. -/
  solutions : Option (List Ty) := none
  /-- Whether there may be other solutions. -/
  ambiguous : Bool := false
  /-- Why the search failed; a runaway is kept beside solutions found before it. -/
  failure : Option Failure := none
deriving DecidableEq

/-- What was spent on a search: reductions and branches. -/
structure Effort where
  steps : Nat := 0
  branches : Nat := 0
deriving DecidableEq, Repr

/-- The result of advancing a problem. -/
inductive Progress
  | further (p : Problem)
  | fork (branches : List Problem)
  | done (o : Outcome)

namespace Problem

/-- The outcome of a problem with nothing left to do. -/
def outcome (p : Problem) : Outcome :=
  let unsolved := p.unknowns.filter fun u => u.solution.isNone
  if unsolved.isEmpty then
    { solutions := some (p.unknowns.filterMap Unknown.solution), ambiguous := p.picked }
  else
    { ambiguous := p.picked
      failure := some (.incomplete (unsolved.map fun u => u.var.name)) }

/-- Reduces the oldest pending constraint. -/
def advanceBy (s : Setting) (p : Problem) (c : Constraint) (rest : List Constraint) :
    Query Progress := do
  let p := { p with pending := rest }
  match ← p.reduce s c with
  | .filed unknowns => pure (.further { p with unknowns })
  | .allOf cs => pure (.further (p.push cs))
  | .oneOf cs => pure (.fork (cs.map fun c => { p.push [c] with picked := false }))
  | .refuted f => pure (.done { failure := some f })

/-- Settles the unknowns. -/
def advanceSettled (s : Setting) (p : Problem) : Query Progress := do
  let p ← settle (p.unknowns.length + 1) p
  if p.pending.isEmpty then
    match ← p.pick s with
    | .error f => pure (.done { failure := some f })
    | .ok p' =>
      if p'.isRipe then pure (.further { p' with picked := true }) else pure (.done p'.outcome)
  else pure (.further p)

/-- Advances a problem by one step. -/
def advance (s : Setting) (p : Problem) : Query Progress :=
  match p.pending with
  | c :: rest => p.advanceBy s c rest
  | [] => p.advanceSettled s

/-- The outcome of a problem that would need a reduction too many. -/
def runaway (s : Setting) (p : Problem) : Outcome :=
  { failure := some (.runaway s.options.maxSteps
      ((p.pending.take 8).map fun c => c.toClaim.render)) }

end Problem

namespace Outcome

/-- Whether the search ran out of reductions. -/
def isRunaway (o : Outcome) : Bool :=
  (o.failure.bind Failure.kind?) == some Failure.Kind.runaway

/-- The failure to report when no branch is solved: the first that lacked information, else the
first. -/
def blame (failures : List Failure) : Failure :=
  match failures.find? fun f => f.kind? == some Failure.Kind.incomplete with
  | some f => f
  | none => failures.headD (.incomplete [])

/-- The outcome of a fork so far, after one more branch. -/
def merge (o branch : Outcome) : Outcome :=
  { solutions := if o.solutions.isSome then o.solutions else branch.solutions
    ambiguous := o.ambiguous || branch.ambiguous
      || (o.solutions.isSome && branch.solutions.isSome) }

/-- Whether more branches cannot change the outcome. -/
def isSettled (o : Outcome) : Bool := o.solutions.isSome && o.ambiguous

/-- The outcome of a fork after its last branch. -/
def close (o : Outcome) (failures : List Failure) : Outcome :=
  if o.solutions.isSome then o else { o with failure := some (blame failures) }

end Outcome

/-- The outcome of a fork: its branches are searched in order, given the outcome so far and the
failures of the branches before. -/
def searchBranches (exhaustive : Bool) (search : Problem → Effort → Query (Outcome × Effort)) :
    List Problem → Outcome → List Failure → Effort → Query (Outcome × Effort)
  | [], o, failures, effort => pure (o.close failures, effort)
  | p :: ps, o, failures, effort => do
    let (branch, effort) ← search p effort
    if branch.isRunaway then pure ({ o with failure := branch.failure }, effort)
    else
      let o := o.merge branch
      let failures := if branch.solutions.isSome then failures
        else failures ++ branch.failure.toList
      if o.isSettled && !exhaustive then pure (o.close failures, effort)
      else searchBranches exhaustive search ps o failures effort

/-- Searches for solutions, advancing no branch more often than given. -/
def searchWithin (s : Setting) : Nat → Problem → Effort → Query (Outcome × Effort)
  | 0, _, _ => throw .exhausted
  | n + 1, p, effort => do
    let effort := if p.pending.isEmpty then effort else { effort with steps := effort.steps + 1 }
    if s.options.maxSteps < effort.steps then pure (p.runaway s, effort)
    else match ← p.advance s with
      | .done o => pure (o, effort)
      | .further p' => searchWithin s n p' effort
      | .fork branches =>
        searchBranches s.options.exhaustive (searchWithin s n) branches {} []
          { effort with branches := effort.branches + branches.length }

/-- How often a branch can be advanced: once for each reduction and the one too many, and twice
for each unknown that is settled. -/
def advancesAtMost (s : Setting) (p : Problem) : Nat :=
  s.options.maxSteps + 2 * p.unknowns.length + 4

/-- Searches for solutions of a problem. -/
def search (s : Setting) (p : Problem) : Query (Outcome × Effort) :=
  searchWithin s (advancesAtMost s p) p {}

/-- Solves for the parameters of a declaration under some claims. -/
def solve (s : Setting) (decl : String) (claims : List Claim) : Query (Outcome × Effort) := do
  let params ← s.params decl
  search s ((Problem.start s params).push (claims.map fun c => { c with }))

end Generics.Inference
