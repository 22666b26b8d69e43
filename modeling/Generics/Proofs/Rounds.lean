/-
# The rounds of a search

A branch of a search runs through two loops that follow each other. The first one reduces constraints for
as long as some are pending. The second one hands on solutions for as long as there are some to hand on;
behind it, the first loop begins again if a constraint is pending, else solutions are picked among bounds
and it begins again if some were picked. `Point.round` is one round of these loops:

| loop | round | leads to |
| --- | --- | --- |
| reducing | the oldest pending constraint is reduced | the same loop, a fork, or the end |
| reducing | no constraint is pending | settling |
| settling | there are solutions to hand on | settling |
| settling | constraints are pending | reducing |
| settling | solutions are picked among bounds | reducing, or the end |

A search is a `Runs` of rounds, however many: every reduction is counted before it is made, over all
branches together, and the guard trips in place of a reduction that there is no effort left for. The
`Event`s of a run say which constraints were reduced and where the guard tripped, in order, over all
branches. A point has at most one run (`Runs.unique`).
-/

import Generics.Proofs.Searches

namespace Generics.Inference

open Query

/-! ### Rounds -/

/-- The loop that a branch of a search is in. -/
inductive Stage
  /-- Constraints are reduced. -/
  | reducing
  /-- Solutions are handed on, or picked among bounds. -/
  | settling

/-- Where a branch of a search stands between two rounds. -/
structure Point where
  stage : Stage
  problem : Problem

/-- What a round leads to. -/
inductive Turn
  | next (x : Point)
  | fork (branches : List Problem)
  | done (o : Outcome)

/-- The point where a branch begins. -/
def Problem.point (p : Problem) : Point := ⟨.reducing, p⟩

/-- What the result of advancing a problem leads to. -/
def Progress.turn : Progress → Turn
  | .further p => .next p.point
  | .fork branches => .fork branches
  | .done o => .done o

/-- Advances a problem that is settled: a pending constraint is next, else solutions are picked among
bounds. -/
def Problem.conclude (s : Setting) (p : Problem) : Query Progress := do
  if p.pending.isEmpty then
    match ← p.pick s with
    | .error f => pure (.done { failure := some f })
    | .ok p' =>
      if p'.isRipe then pure (.further { p' with picked := true }) else pure (.done p'.outcome)
  else pure (.further p)

/-- Advancing a settled problem is settling it and then concluding. -/
theorem Problem.advanceSettled_eq (s : Setting) (p : Problem) :
    p.advanceSettled s = settle (p.unknowns.length + 1) p >>= fun p => p.conclude s := rfl

namespace Point

/-- One round of the loops of a search. -/
def round (s : Setting) : Point → Query Turn
  | ⟨.reducing, p⟩ =>
    match p.pending with
    | c :: rest => do return (← p.advanceBy s c rest).turn
    | [] => pure (.next ⟨.settling, p⟩)
  | ⟨.settling, p⟩ =>
    if p.promote.isRipe then do return .next ⟨.settling, ← p.promote.hand⟩
    else do return (← p.promote.conclude s).turn

/-- The constraint that a round reduces, if any. -/
def reduced : Point → List Constraint
  | ⟨.reducing, p⟩ => p.pending.take 1
  | ⟨.settling, _⟩ => []

/-- The effort counted before a round. -/
def spend (x : Point) (effort : Effort) : Effort :=
  { effort with steps := effort.steps + x.reduced.length }

end Point

/-- What a round leads to begins at the point. -/
def Turn.LeadsTo (y : Point) : Turn → Prop
  | .next x => y = x
  | .fork branches => ∃ p ∈ branches, y = p.point
  | .done _ => False

/-- A round, asked in some memory, leads from one point to the other, or into a branch that begins
there. -/
def Point.Turns (s : Setting) (x y : Point) : Prop :=
  ∃ m turn m', (x.round s).Answers m turn m' ∧ turn.LeadsTo y

/-- Any number of rounds lead from one point to the other, through any branches. -/
def Point.Reaches (s : Setting) : Point → Point → Prop := Relation.ReflTransGen (Point.Turns s)

/-! ### Runs -/

/-- What is noted of a search. -/
inductive Event
  /-- The constraint was reduced. -/
  | reduced (c : Constraint)
  /-- The guard tripped: a constraint was to be reduced, but there was no effort left. -/
  | tripped

/-- The events of a round. -/
def Point.events (x : Point) : List Event := x.reduced.map .reduced

section Runs

variable (s : Setting)

mutual
/-- Run from a point with some effort spent and some memory, the search notes the events, answers or
fails, and leaves the second memory. -/
inductive Runs :
    Point → Effort → Memory → List Event → Except Failure (Outcome × Effort) → Memory → Prop
  | tripped {x : Point} {effort : Effort} {m : Memory}
      (hover : s.options.maxSteps < (x.spend effort).steps) :
      Runs x effort m [.tripped] (.ok (x.problem.runaway s, x.spend effort)) m
  | fails {x : Point} {effort : Effort} {m m' : Memory} {f : Failure}
      (hwithin : (x.spend effort).steps ≤ s.options.maxSteps)
      (h : (x.round s).outcome m = (.error f, m')) : Runs x effort m x.events (.error f) m'
  | done {x : Point} {effort : Effort} {m m' : Memory} {o : Outcome}
      (hwithin : (x.spend effort).steps ≤ s.options.maxSteps)
      (h : (x.round s).Answers m (.done o) m') :
      Runs x effort m x.events (.ok (o, x.spend effort)) m'
  | next {x y : Point} {effort : Effort} {m m₁ m' : Memory} {log : List Event}
      {r : Except Failure (Outcome × Effort)}
      (hwithin : (x.spend effort).steps ≤ s.options.maxSteps)
      (h : (x.round s).Answers m (.next y) m₁) (hrest : Runs y (x.spend effort) m₁ log r m') :
      Runs x effort m (x.events ++ log) r m'
  | fork {x : Point} {effort : Effort} {m m₁ m' : Memory} {branches : List Problem}
      {log : List Event} {r : Except Failure (Outcome × Effort)}
      (hwithin : (x.spend effort).steps ≤ s.options.maxSteps)
      (h : (x.round s).Answers m (.fork branches) m₁)
      (hrest : RunsAll branches {} []
        { x.spend effort with branches := effort.branches + branches.length } m₁ log r m') :
      Runs x effort m (x.events ++ log) r m'

/-- The branches of a fork are run in order, given the outcome and the failures so far, until one of
them runs away or the outcome is settled or none remains. -/
inductive RunsAll : List Problem → Outcome → List Failure → Effort → Memory → List Event →
    Except Failure (Outcome × Effort) → Memory → Prop
  | nil {o : Outcome} {failures : List Failure} {effort : Effort} {m : Memory} :
      RunsAll [] o failures effort m [] (.ok (o.close failures, effort)) m
  | fails {p : Problem} {ps : List Problem} {o : Outcome} {failures : List Failure} {effort : Effort}
      {m m' : Memory} {log : List Event} {f : Failure}
      (hbranch : Runs p.point effort m log (.error f) m') :
      RunsAll (p :: ps) o failures effort m log (.error f) m'
  | runaway {p : Problem} {ps : List Problem} {o branch : Outcome} {failures : List Failure}
      {effort effort₁ : Effort} {m m' : Memory} {log : List Event}
      (hbranch : Runs p.point effort m log (.ok (branch, effort₁)) m')
      (hrun : branch.isRunaway = true) :
      RunsAll (p :: ps) o failures effort m log
        (.ok ({ o with failure := branch.failure }, effort₁)) m'
  | stop {p : Problem} {ps : List Problem} {o branch : Outcome} {failures : List Failure}
      {effort effort₁ : Effort} {m m' : Memory} {log : List Event}
      (hbranch : Runs p.point effort m log (.ok (branch, effort₁)) m')
      (hcalm : branch.isRunaway = false)
      (hsettled : (o.merge branch).isSettled = true ∧ s.options.exhaustive = false) :
      RunsAll (p :: ps) o failures effort m log
        (.ok ((o.merge branch).close (branch.failuresWith failures), effort₁)) m'
  | next {p : Problem} {ps : List Problem} {o branch : Outcome} {failures : List Failure}
      {effort effort₁ : Effort} {m m₁ m' : Memory} {log more : List Event}
      {r : Except Failure (Outcome × Effort)}
      (hbranch : Runs p.point effort m log (.ok (branch, effort₁)) m₁)
      (hcalm : branch.isRunaway = false)
      (hmore : ¬ ((o.merge branch).isSettled = true ∧ s.options.exhaustive = false))
      (hrest : RunsAll ps (o.merge branch) (branch.failuresWith failures) effort₁ m₁ more r m') :
      RunsAll (p :: ps) o failures effort m (log ++ more) r m'
end

end Runs

variable {s : Setting}

mutual
/-- **A point has at most one run.** -/
theorem Runs.unique {x : Point} {effort : Effort} {m m₁ : Memory} {log : List Event}
    {r : Except Failure (Outcome × Effort)} :
    Runs s x effort m log r m₁ → ∀ {log' r' m₂}, Runs s x effort m log' r' m₂ →
      log' = log ∧ r' = r ∧ m₂ = m₁
  | .tripped hover, _, _, _, h' => by
    cases h' with
    | tripped _ => exact ⟨rfl, rfl, rfl⟩
    | fails hwithin _ => exact absurd hover (Nat.not_lt.2 hwithin)
    | done hwithin _ => exact absurd hover (Nat.not_lt.2 hwithin)
    | next hwithin _ _ => exact absurd hover (Nat.not_lt.2 hwithin)
    | fork hwithin _ _ => exact absurd hover (Nat.not_lt.2 hwithin)
  | .fails hwithin h, _, _, _, h' => by
    cases h' with
    | tripped hover => exact absurd hover (Nat.not_lt.2 hwithin)
    | fails _ h' =>
      cases h'.symm.trans h
      exact ⟨rfl, rfl, rfl⟩
    | done _ h' => cases h'.symm.trans h
    | next _ h' _ => cases h'.symm.trans h
    | fork _ h' _ => cases h'.symm.trans h
  | .done hwithin h, _, _, _, h' => by
    cases h' with
    | tripped hover => exact absurd hover (Nat.not_lt.2 hwithin)
    | fails _ h' => cases h'.symm.trans h
    | done _ h' =>
      cases h'.symm.trans h
      exact ⟨rfl, rfl, rfl⟩
    | next _ h' _ => cases h'.symm.trans h
    | fork _ h' _ => cases h'.symm.trans h
  | .next hwithin h hrest, _, _, _, h' => by
    have ih := @hrest.unique
    cases h' with
    | tripped hover => exact absurd hover (Nat.not_lt.2 hwithin)
    | fails _ h' => cases h'.symm.trans h
    | done _ h' => cases h'.symm.trans h
    | next _ h' hrest' =>
      cases h'.symm.trans h
      obtain ⟨rfl, rfl, rfl⟩ := ih hrest'
      exact ⟨rfl, rfl, rfl⟩
    | fork _ h' _ => cases h'.symm.trans h
  | .fork hwithin h hrest, _, _, _, h' => by
    have ih := @hrest.unique
    cases h' with
    | tripped hover => exact absurd hover (Nat.not_lt.2 hwithin)
    | fails _ h' => cases h'.symm.trans h
    | done _ h' => cases h'.symm.trans h
    | next _ h' _ => cases h'.symm.trans h
    | fork _ h' hrest' =>
      cases h'.symm.trans h
      obtain ⟨rfl, rfl, rfl⟩ := ih hrest'
      exact ⟨rfl, rfl, rfl⟩

/-- The branches of a fork run in one way only, if each branch does. -/
theorem RunsAll.unique {ps : List Problem} {o : Outcome} {failures : List Failure} {effort : Effort}
    {m m₁ : Memory} {log : List Event} {r : Except Failure (Outcome × Effort)} :
    RunsAll s ps o failures effort m log r m₁ →
      ∀ {log' r' m₂}, RunsAll s ps o failures effort m log' r' m₂ → log' = log ∧ r' = r ∧ m₂ = m₁
  | .nil, _, _, _, h' => by
    cases h'
    exact ⟨rfl, rfl, rfl⟩
  | .fails hbranch, _, _, _, h' => by
    have ih := @hbranch.unique
    cases h' with
    | fails hbranch' =>
      obtain ⟨rfl, hr, rfl⟩ := ih hbranch'
      exact ⟨rfl, by cases hr; rfl, rfl⟩
    | runaway hbranch' _ => cases (ih hbranch').2.1
    | stop hbranch' _ _ => cases (ih hbranch').2.1
    | next hbranch' _ _ _ => cases (ih hbranch').2.1
  | .runaway hbranch hrun, _, _, _, h' => by
    have ih := @hbranch.unique
    cases h' with
    | fails hbranch' => cases (ih hbranch').2.1
    | runaway hbranch' _ =>
      obtain ⟨rfl, hr, rfl⟩ := ih hbranch'
      cases hr
      exact ⟨rfl, rfl, rfl⟩
    | stop hbranch' hcalm _ =>
      obtain ⟨rfl, hr, rfl⟩ := ih hbranch'
      cases hr
      cases hrun.symm.trans hcalm
    | next hbranch' hcalm _ _ =>
      obtain ⟨rfl, hr, rfl⟩ := ih hbranch'
      cases hr
      cases hrun.symm.trans hcalm
  | .stop hbranch hcalm hsettled, _, _, _, h' => by
    have ih := @hbranch.unique
    cases h' with
    | fails hbranch' => cases (ih hbranch').2.1
    | runaway hbranch' hrun =>
      obtain ⟨rfl, hr, rfl⟩ := ih hbranch'
      cases hr
      cases hrun.symm.trans hcalm
    | stop hbranch' _ _ =>
      obtain ⟨rfl, hr, rfl⟩ := ih hbranch'
      cases hr
      exact ⟨rfl, rfl, rfl⟩
    | next hbranch' _ hmore _ =>
      obtain ⟨rfl, hr, rfl⟩ := ih hbranch'
      cases hr
      exact absurd hsettled hmore
  | .next hbranch hcalm hmore hrest, _, _, _, h' => by
    have ih := @hbranch.unique
    have ihs := @hrest.unique
    cases h' with
    | fails hbranch' => cases (ih hbranch').2.1
    | runaway hbranch' hrun =>
      obtain ⟨rfl, hr, rfl⟩ := ih hbranch'
      cases hr
      cases hrun.symm.trans hcalm
    | stop hbranch' _ hsettled =>
      obtain ⟨rfl, hr, rfl⟩ := ih hbranch'
      cases hr
      exact absurd hsettled hmore
    | next hbranch' _ _ hrest' =>
      obtain ⟨rfl, hr, rfl⟩ := ih hbranch'
      cases hr
      obtain ⟨rfl, rfl, rfl⟩ := ihs hrest'
      exact ⟨rfl, rfl, rfl⟩
end

end Generics.Inference
