/-
# Constraints and unknowns

A constraint relates two types: the left one is below, equal to, or above the right one. It
remembers the constraints it was reduced from, the closest first, for the failure that it
cannot hold.

An unknown is a variable to be solved for, with the constraints on it that are filed by
relation. The variable is always on the left. Once a solution is found, the filed constraints
become constraints on the solution, and the unknown is closed.
-/

import Generics.Query.Subtyping

namespace Generics.Inference

/-- How the left type of a constraint relates to the right one. -/
inductive Relation
  | below
  | equal
  | above
deriving DecidableEq, Repr

namespace Relation

/-- The sign of a relation. -/
def symbol : Relation → String
  | .below => "<:"
  | .equal => "="
  | .above => ":>"

/-- The relation of a number: negative one for below, one for above, else equality. -/
def ofInt (n : Int) : Relation :=
  if n = -1 then .below else if n = 1 then .above else .equal

/-- The relation seen from the other side. -/
def flip : Relation → Relation
  | .below => .above
  | .equal => .equal
  | .above => .below

end Relation

/-- That two types are related. -/
structure Claim where
  lhs : Ty
  rel : Relation
  rhs : Ty
deriving DecidableEq

/-- The text of a claim. -/
def Claim.render (c : Claim) : String := c.lhs.render ++ " " ++ c.rel.symbol ++ " " ++ c.rhs.render

/-- A claim to be met, with the claims it was reduced from, the closest first. -/
structure Constraint extends Claim where
  origin : List Claim := []
deriving DecidableEq

namespace Constraint

/-- A constraint reduced from another one. -/
def child (c : Constraint) (lhs : Ty) (rel : Relation) (rhs : Ty) : Constraint :=
  { lhs, rel, rhs, origin := c.toClaim :: c.origin }

/-- The constraint seen from the other side. -/
def flip (c : Constraint) : Constraint :=
  { lhs := c.rhs, rel := c.rel.flip, rhs := c.lhs, origin := c.origin }

/-- The failure that a constraint cannot hold. -/
def failure (c : Constraint) : Failure :=
  .unsatisfiable c.toClaim.render (c.origin.map Claim.render)

/-- Replaces variables on both sides; if that changes one, the result is reduced from the
constraint as it was. -/
def replace (σ : Subst) (c : Constraint) : Query Constraint := do
  let lhs ← Query.replace? σ c.lhs
  let rhs ← Query.replace? σ c.rhs
  match lhs, rhs with
  | none, none => pure c
  | lhs, rhs => pure (c.child (lhs.getD c.lhs) c.rel (rhs.getD c.rhs))

/-- Replaces variables in some constraints. -/
def replaceAll (σ : Subst) : List Constraint → Query (List Constraint)
  | [] => pure []
  | c :: cs => do
    let c' ← c.replace σ
    return c' :: (← replaceAll σ cs)

end Constraint

/-- A variable to be solved for. -/
structure Unknown where
  var : TypeVar
  /-- What the variable is to be below. -/
  upper : List Constraint := []
  /-- What the variable is to equal. -/
  equal : List Constraint := []
  /-- What the variable is to be above. -/
  lower : List Constraint := []
  solution : Option Ty := none
  /-- Whether the filed constraints were handed on to the solution. -/
  closed : Bool := false
deriving DecidableEq

namespace Unknown

/-- Files a constraint with the variable on the left. The type of null is no solution: to be
above it says nothing, to be below it or equal to it cannot hold. -/
def file (u : Unknown) (c : Constraint) : Except Failure Unknown :=
  if c.rhs = .null then
    if c.rel = .above then .ok u else .error c.failure
  else match c.rel with
    | .below => .ok { u with upper := u.upper ++ [c] }
    | .equal => .ok { u with equal := u.equal ++ [c] }
    | .above => .ok { u with lower := u.lower ++ [c] }

/-- Files a constraint with the first unknown of a key. -/
def fileWith (key : VarKey) (c : Constraint) : List Unknown → Except Failure (List Unknown)
  | [] => .ok []
  | u :: us =>
    if u.var.key = key then (u.file c).map (· :: us)
    else (fileWith key c us).map (u :: ·)

end Unknown

/-- What is left to solve: the unknowns, the constraints not yet looked at, oldest first, and
whether a solution was picked among several bounds. -/
structure Problem where
  unknowns : List Unknown
  pending : List Constraint := []
  picked : Bool := false
deriving DecidableEq

namespace Problem

/-- Whether a key belongs to an unknown. -/
def isUnknown (p : Problem) (key : VarKey) : Bool := p.unknowns.any fun u => u.var.key == key

/-- The key of the unknown that a type is. -/
def unknown? (p : Problem) (t : Ty) : Option VarKey :=
  (t.typeVar?.map TypeVar.key).filter p.isUnknown

/-- Whether an unknown occurs in a type. -/
def mentions (p : Problem) (t : Ty) : Bool := t.vars.any fun v => p.isUnknown v.key

/-- The solutions of the unknowns that satisfy a condition. -/
def solutionsWhere (p : Problem) (cond : Unknown → Bool) : Subst :=
  Subst.insertAll {} (p.unknowns.filterMap fun u =>
    if cond u then u.solution.map (Var.declared u.var, ·) else none)

/-- Adds constraints after those pending. -/
def push (p : Problem) (cs : List Constraint) : Problem := { p with pending := p.pending ++ cs }

/-- The problem of solving for variables within their bounds. -/
def start (s : Setting) (vars : List TypeVar) : Problem :=
  { unknowns := vars.map fun v => { var := v }
    pending := vars.flatMap fun v =>
      [ { lhs := .var (.declared v), rel := .below, rhs := s.catalog.upper v },
        { lhs := .var (.declared v), rel := .above, rhs := .null } ] }

/-- What is pending first is that variables are below their bounds, and above `Null`. -/
theorem pending_start {s : Setting} {vars : List TypeVar} {c : Constraint} (hc : c ∈ (start s vars).pending) :
    ∃ v ∈ vars, c = { lhs := .var (.declared v), rel := .below, rhs := s.catalog.upper v } ∨
      c = { lhs := .var (.declared v), rel := .above, rhs := .null } := by
  obtain ⟨v, hv, hc⟩ := List.mem_flatMap.1 hc
  rw [List.mem_cons, List.mem_singleton] at hc
  exact ⟨v, hv, hc⟩

end Problem

end Generics.Inference
