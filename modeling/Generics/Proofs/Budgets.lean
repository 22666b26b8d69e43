/-
# The budget of a search

A search always ends (`search_within_budget`). Only some rounds draw on the budget of reductions, so what
decreases is the budget that is left together with what the unknowns still owe, a solution and their
closing each (`Problem.owes`):

| round | budget left | unclosed | unsolved |
| --- | --- | --- | --- |
| a constraint is reduced | less | same | same |
| a solution is handed on | same | less | same |
| a solution is picked | same | same | less |

The branches of a fork owe what the problem owed, and a fork comes of a reduction. So a run has an end
whatever the constraints are, and its number of reductions, over all branches, is within the budget. When
the guard trips, the branch is a runaway, and so is every fork above it: nothing is reduced afterwards
(`Runs.within`). All that can keep a search from its outcome is a question that fails
(`Runs.stumbles`).
-/

import Generics.Proofs.Rounds
import Generics.Proofs.Thoroughness
import Generics.Proofs.Uniqueness

namespace Generics

/-! ### Questions that fail -/

/-- All failures of the question, with the memory they leave, have the property. -/
def Query.FailsOnly {α : Type} (P : Failure → Memory → Prop) (q : Query α) : Prop :=
  ∀ m f m', q.outcome m = (.error f, m') → P f m'

namespace Query.FailsOnly

variable {α β : Type} {P : Failure → Memory → Prop}

/-- A question that always answers never fails. -/
theorem of_answers {q : Query α} (h : ∀ m, ∃ a m', q.Answers m a m') : FailsOnly P q := by
  intro m f m' hf
  obtain ⟨a, m₁, ha⟩ := h m
  cases ha.symm.trans hf

/-- A pure question never fails. -/
theorem pure (a : α) : FailsOnly P (pure a) := of_answers fun m => ⟨a, m, rfl⟩

/-- Questions one after the other fail as one of them does. -/
theorem bind {q : Query α} {g : α → Query β} (hq : FailsOnly P q) (hg : ∀ a, FailsOnly P (g a)) :
    FailsOnly P (q >>= g) := by
  intro m f m' hf
  rw [outcome_bind] at hf
  rcases hq' : q.outcome m with ⟨e | a, m₁⟩
  · rw [hq'] at hf
    cases hf
    exact hq m f m' hq'
  · rw [hq'] at hf
    exact hg a m₁ f m' hf

/-- Two questions fail as one of them does. -/
theorem both {first second : Query Bool} (h₁ : FailsOnly P first) (h₂ : FailsOnly P second) :
    FailsOnly P (Query.both first second) :=
  h₁.bind fun b => by
    cases b with
    | true => exact h₂
    | false => exact .pure false

/-- Asking a question of all elements fails as it does of one of them. -/
theorem all {ask : α → Query Bool} (h : ∀ a, FailsOnly P (ask a)) (as : List α) :
    FailsOnly P (Query.all ask as) := by
  induction as with
  | nil => exact .pure true
  | cons a as ih => exact (h a).both ih

/-- Looking for a first answer fails as the question does of an element. -/
theorem first? {ask : α → Query Bool} (h : ∀ a, FailsOnly P (ask a)) (as : List α) :
    FailsOnly P (Query.first? ask as) := by
  induction as with
  | nil => exact .pure none
  | cons a as ih =>
    refine (h a).bind fun b => ?_
    cases b with
    | true => exact .pure (some a)
    | false => exact ih

end Query.FailsOnly

/-- A question that searches ask fails with the failure and leaves the memory: whether a type is below
another one, or how an applied declaration, captured, meets another one. -/
def Setting.Stumbles (s : Setting) (f : Failure) (m' : Memory) : Prop :=
  (∃ a b m, (s.below a b).outcome m = (.error f, m')) ∨
    ∃ a b m, (s.meeting a b).outcome m = (.error f, m')

namespace Inference

open Query

variable {s : Setting} {m m' : Memory} {p p' : Problem}

/-- A comparison that fails is one that searches stumble over. -/
theorem below_stumbles (a b : Ty) : FailsOnly s.Stumbles (s.below a b) :=
  fun m _ _ h => .inl ⟨a, b, m, h⟩

/-- A meeting that fails is one that searches stumble over. -/
theorem meeting_stumbles (a b : Nominal) : FailsOnly s.Stumbles (s.meeting a b) :=
  fun m _ _ h => .inr ⟨a, b, m, h⟩

/-- Asking for an upper bound does not fail. -/
theorem upper_stumbles (v : Var) : FailsOnly s.Stumbles (s.upper v) :=
  .of_answers fun m => by cases v <;> exact ⟨_, m, rfl⟩

/-- Asking for a lower bound does not fail. -/
theorem lower_stumbles (v : Var) : FailsOnly s.Stumbles (s.lower v) :=
  .of_answers fun m => by cases v <;> exact ⟨_, m, rfl⟩

namespace Constraint

/-- Reducing two declarations fails only over their meeting. -/
theorem reduceNominal_stumbles (c : Constraint) (a b : Nominal) :
    FailsOnly s.Stumbles (c.reduceNominal s a b) := by
  rw [reduceNominal_eq]
  refine (meeting_stumbles a b).bind fun meeting => ?_
  cases meeting with
  | never => exact .pure _
  | always => exact .pure _
  | found args =>
    dsimp only
    split <;> exact .pure _

/-- Reducing a constraint that one type is below another one fails only over a comparison or a meeting.
-/
theorem reduceBelow_stumbles (c : Constraint) (a b : Ty) :
    FailsOnly s.Stumbles (c.reduceBelow s a b) := by
  unfold reduceBelow
  split
  · exact c.reduceNominal_stumbles _ _
  · exact .pure _
  · exact .pure _
  · exact .pure _
  · exact (lower_stumbles _).bind fun _ => .pure _
  · exact .pure _
  · split
    · exact .pure _
    · exact (upper_stumbles _).bind fun _ => (lower_stumbles _).bind fun _ => .pure _
  · exact (upper_stumbles _).bind fun _ => .pure _
  · exact (lower_stumbles _).bind fun _ => .pure _
  · exact .pure _
  · exact .pure _
  · exact .pure _
  · exact .pure _

/-- Reducing a constraint without unknowns fails only over a question. -/
theorem reduceRigid_stumbles (c : Constraint) : FailsOnly s.Stumbles (c.reduceRigid s) := by
  unfold reduceRigid
  split
  · exact c.reduceBelow_stumbles _ _
  · exact c.reduceBelow_stumbles _ _
  · exact .pure _

end Constraint

namespace Unknown

/-- Picking a bound fails only over a comparison. -/
theorem pick_stumbles (mentions : Ty → Bool) (u : Unknown) :
    FailsOnly s.Stumbles (u.pick s mentions) := by
  have hclash : FailsOnly s.Stumbles (u.clash? s) :=
    (FailsOnly.first? (fun _ => (below_stumbles _ _).bind fun _ => .pure _) _).bind fun _ => .pure _
  have hadmits : ∀ t, FailsOnly s.Stumbles (u.admits s t) := fun _ =>
    (FailsOnly.all (fun _ => below_stumbles _ _) _).both (.all (fun _ => below_stumbles _ _) _)
  unfold pick
  split
  · refine hclash.bind fun clash => ?_
    cases clash with
    | some c => exact .pure _
    | none =>
      refine (FailsOnly.first? (fun c : Constraint => hadmits c.rhs) _).bind fun chosen => ?_
      cases chosen <;> exact .pure _
  · exact .pure _

/-- Picking bounds for all unknowns fails only over a comparison. -/
theorem pickAll_stumbles (mentions : Ty → Bool) (us : List Unknown) :
    FailsOnly s.Stumbles (pickAll s mentions us) := by
  induction us with
  | nil => exact .pure _
  | cons u us ih =>
    refine (u.pick_stumbles mentions).bind fun r => ?_
    cases r with
    | error f => exact .pure _
    | ok u' => exact ih.bind fun _ => .pure _

end Unknown

/-- Advancing by a constraint fails only over a question. -/
theorem Problem.advanceBy_stumbles (p : Problem) (c : Constraint) (rest : List Constraint) :
    FailsOnly s.Stumbles (p.advanceBy s c rest) := by
  have hreduce : ∀ q : Problem, FailsOnly s.Stumbles (q.reduce s c) := by
    intro q
    refine FailsOnly.bind (.of_answers (Constraint.replace_total _ c)) fun c' => ?_
    split
    · split
      · exact c'.reduceRigid_stumbles
      · exact .pure _
    · split
      · split
        · exact c'.reduceRigid_stumbles
        · exact .pure _
      · exact c'.reduceRigid_stumbles
  refine (hreduce _).bind fun r => ?_
  cases r <;> exact .pure _

/-- Concluding fails only over a question. -/
theorem Problem.conclude_stumbles (p : Problem) : FailsOnly s.Stumbles (p.conclude s) := by
  unfold conclude
  split
  · refine FailsOnly.bind (FailsOnly.bind (Unknown.pickAll_stumbles _ _) fun _ => .pure _) fun r => ?_
    cases r with
    | error f => exact .pure _
    | ok p' =>
      dsimp only
      split <;> exact .pure _
  · exact .pure _

/-- **A round fails only if a question fails.** -/
theorem Point.round_stumbles (x : Point) : FailsOnly s.Stumbles (x.round s) := by
  obtain ⟨stage, p⟩ := x
  cases stage with
  | reducing =>
    unfold round
    dsimp only
    split
    · next c rest _ => exact (p.advanceBy_stumbles c rest).bind fun _ => .pure _
    · exact .pure _
  | settling =>
    unfold round
    dsimp only
    split
    · exact FailsOnly.bind (.of_answers p.promote.hand_total) fun _ => .pure _
    · exact p.promote.conclude_stumbles.bind fun _ => .pure _

/-! ### What unknowns owe -/

namespace Unknown

/-- Number of unknowns that are not closed. -/
def unclosed (us : List Unknown) : Nat := us.countP fun u => !u.closed

/-- Number of unknowns without a solution. -/
def unsolved (us : List Unknown) : Nat := us.countP fun u => u.solution.isNone

variable {us us' : List Unknown} {τ : Subst} {cs : List Constraint} {mentions : Ty → Bool}

/-- Promoting leaves an unknown open or closed, as it was. -/
theorem promote_closed (mentions : Ty → Bool) (u : Unknown) :
    (u.promote mentions).closed = u.closed := by
  rcases u.promote_cases mentions with h | ⟨_, _, c, pre, post, _, _, h⟩ <;> rw [h]

/-- Promoting leaves the number of open unknowns. -/
theorem unclosed_promote : unclosed (us.map (promote mentions)) = unclosed us := by
  rw [unclosed, unclosed, List.countP_map]
  exact List.countP_congr fun u _ => by rw [Function.comp_apply, promote_closed]

/-- Promoting leaves no more unknowns without a solution. -/
theorem unsolved_promote : unsolved (us.map (promote mentions)) ≤ unsolved us := by
  rw [unsolved, unsolved, List.countP_map]
  refine List.countP_mono_left fun u _ hnone => ?_
  rw [Function.comp_apply, Option.isNone_iff_eq_none] at hnone
  rw [Option.isNone_iff_eq_none, Option.eq_none_iff_forall_ne_some]
  intro t ht
  rw [(u.promote_extends mentions).solution t ht] at hnone
  cases hnone

/-- Handing on closes an unknown if it was ripe. -/
theorem Handed.closed_eq {u u' : Unknown} (h : u.Handed τ u' cs) :
    u'.closed = (u.closed || u.isRipe) := by
  cases h with
  | closed hclosed => rw [hclosed]; rfl
  | solved hopen hsol _ _ _ => simp [isRipe, hopen, hsol]
  | waiting hopen hnone _ _ _ => simp [isRipe, hopen, hnone]

/-- Handing on closes the unknowns that are ripe. -/
theorem HandedAll.owes (h : HandedAll τ us us' cs) :
    unclosed us' ≤ unclosed us ∧ (us.any isRipe = true → unclosed us' < unclosed us) ∧
      unsolved us' = unsolved us := by
  unfold unclosed unsolved
  induction h with
  | nil => simp
  | @cons u u' us us' cs more hu _ ih =>
    obtain ⟨hle, hlt, hsolved⟩ := ih
    simp only [List.countP_cons, List.any_cons, Bool.or_eq_true, hu.closed_eq, hu.solution, hsolved]
    have hripe : u.isRipe = true → u.closed = false := by
      rw [isRipe, Bool.and_eq_true, Bool.not_eq_true']
      exact And.left
    cases hr : u.isRipe with
    | true =>
      rw [hripe hr]
      simp
      omega
    | false =>
      simp only [Bool.or_false, Bool.false_eq_true, false_or]
      exact ⟨Nat.add_le_add_right hle _, fun h => Nat.add_lt_add_right (hlt h) _, trivial⟩

/-- Picking solves the unknowns that become ripe by it. -/
theorem picked_owes (h : List.Forall₂ (Picked mentions) us us') :
    unclosed us' = unclosed us ∧ unsolved us' ≤ unsolved us ∧
      (us.any isRipe = false → us'.any isRipe = true → unsolved us' < unsolved us) := by
  unfold unclosed unsolved
  induction h with
  | nil => simp
  | @cons u u' us us' hu _ ih =>
    obtain ⟨hclosed, hle, hlt⟩ := ih
    simp only [List.countP_cons, List.any_cons, Bool.or_eq_true, Bool.or_eq_false_iff, hclosed]
    cases hu with
    | none =>
      refine ⟨rfl, by omega, fun hcalm hripe => ?_⟩
      have := hlt hcalm.2 (hripe.resolve_left (by simp [hcalm.1]))
      omega
    | bound hopen hnone _ _ =>
      simp [hnone]
      omega

/-- Filing a constraint leaves the numbers of open and unsolved unknowns. -/
theorem fileWith_owes {key : VarKey} {c : Constraint} (h : fileWith key c us = .ok us')
    (hkey : us.any (fun u => u.var.key == key) = true) :
    unclosed us' = unclosed us ∧ unsolved us' = unsolved us := by
  obtain ⟨pre, u, post, u', rfl, rfl, -, hfile⟩ := fileWith_eq_ok h hkey
  have hsame : u'.closed = u.closed ∧ u'.solution = u.solution := by
    rcases file_eq_ok hfile with ⟨-, -, rfl⟩ | rfl
    · exact ⟨rfl, rfl⟩
    · unfold Unknown.add
      split <;> exact ⟨rfl, rfl⟩
  simp [unclosed, unsolved, List.countP_append, List.countP_cons, hsame.1, hsame.2]

end Unknown

namespace Problem

/-- What the unknowns owe: a solution and their closing each. -/
def owes (p : Problem) : Nat := Unknown.unclosed p.unknowns + Unknown.unsolved p.unknowns

/-- No problem owes more than two rounds for each unknown. -/
theorem owes_le (p : Problem) : p.owes ≤ 2 * p.unknowns.length := by
  have hclosed : Unknown.unclosed p.unknowns ≤ p.unknowns.length := List.countP_le_length
  have hsolved : Unknown.unsolved p.unknowns ≤ p.unknowns.length := List.countP_le_length
  rw [owes]
  omega

/-- Promoting leaves no more rounds owed. -/
theorem promote_owes (p : Problem) : p.promote.owes ≤ p.owes := by
  rw [owes, owes, promote, Unknown.unclosed_promote]
  exact Nat.add_le_add_left Unknown.unsolved_promote _

/-- Advancing by a constraint leaves what is owed to the problem or its branches. -/
theorem advanceBy_owes (p : Problem) (c : Constraint) (rest : List Constraint) :
    Yields (fun progress => ∀ y, progress.turn.LeadsTo y → y.problem.owes = p.owes)
      (p.advanceBy s c rest) := by
  intro m progress m' h y hy
  obtain ⟨r, m₁, hreduce, h⟩ := answers_bind.1 h
  cases r with
  | filed us =>
    obtain ⟨rfl, rfl⟩ := answers_pure.1 h
    obtain ⟨c', d, w, -, -, -, -, hkey, hfile⟩ := reduce_filed hreduce
    obtain ⟨hclosed, hsolved⟩ := Unknown.fileWith_owes hfile hkey
    obtain rfl : y = _ := hy
    exact congrArg₂ (· + ·) hclosed hsolved
  | allOf cs =>
    obtain ⟨rfl, rfl⟩ := answers_pure.1 h
    obtain rfl : y = _ := hy
    rfl
  | oneOf cs =>
    obtain ⟨rfl, rfl⟩ := answers_pure.1 h
    obtain ⟨q, hq, rfl⟩ := hy
    obtain ⟨d, -, rfl⟩ := List.mem_map.1 hq
    rfl
  | refuted f =>
    obtain ⟨rfl, rfl⟩ := answers_pure.1 h
    cases hy

/-- Handing on solutions pays off what ripe unknowns owe. -/
theorem hand_owes (hripe : p.isRipe = true) (h : p.hand.Answers m p' m') :
    Unknown.unclosed p'.unknowns < Unknown.unclosed p.unknowns ∧ p'.owes < p.owes := by
  obtain ⟨cs, -, -, hhanded⟩ := hand_handed h
  obtain ⟨-, hlt, hsolved⟩ := hhanded.owes
  have hclosed := hlt hripe
  rw [owes, owes, hsolved]
  exact ⟨hclosed, Nat.add_lt_add_right hclosed _⟩

/-- When a settled problem is advanced, less is owed than before, unless a constraint is pending. -/
theorem conclude_owes (hcalm : p.isRipe = false) :
    Yields (fun progress => (∀ branches, progress ≠ .fork branches) ∧ ∀ p', progress = .further p' →
      p'.owes ≤ p.owes ∧ (p.pending = [] → p'.owes < p.owes)) (p.conclude s) := by
  intro m progress m' h
  unfold conclude at h
  split at h
  · next hpend =>
    obtain ⟨r, m₁, hpick, h⟩ := answers_bind.1 h
    cases r with
    | error f =>
      obtain ⟨rfl, rfl⟩ := answers_pure.1 h
      exact ⟨fun _ => nofun, fun _ => nofun⟩
    | ok q =>
      dsimp only at h
      split at h
      · next hripe =>
        obtain ⟨rfl, rfl⟩ := answers_pure.1 h
        obtain ⟨hclosed, -, hlt⟩ := Unknown.picked_owes (pick_picked hpick).1
        refine ⟨fun _ => nofun, fun p' hp' => ?_⟩
        cases hp'
        have hlt : ({ q with picked := true } : Problem).owes < p.owes := by
          rw [owes, owes, hclosed]
          exact Nat.add_lt_add_left (hlt hcalm hripe) _
        exact ⟨hlt.le, fun _ => hlt⟩
      · obtain ⟨rfl, rfl⟩ := answers_pure.1 h
        exact ⟨fun _ => nofun, fun _ => nofun⟩
  · next hpend =>
    obtain ⟨rfl, rfl⟩ := answers_pure.1 h
    refine ⟨fun _ => nofun, fun p' hp' => ?_⟩
    cases hp'
    exact ⟨Nat.le_refl _, fun hnil => absurd (by rw [hnil]; rfl) hpend⟩

end Problem

/-! ### Searches are runs -/

/-- The question does what a run from the point does. -/
def IsRun (s : Setting) (q : Query (Outcome × Effort)) (x : Point) (effort : Effort) (m : Memory) :
    Prop :=
  ∃ log r m', q.outcome m = (r, m') ∧ Runs s x effort m log r m'

/-- The question does what the runs of the branches of a fork do. -/
def AreRuns (s : Setting) (q : Query (Outcome × Effort)) (ps : List Problem) (o : Outcome)
    (failures : List Failure) (effort : Effort) (m : Memory) : Prop :=
  ∃ log r m', q.outcome m = (r, m') ∧ RunsAll s ps o failures effort m log r m'

variable {effort : Effort}

/-- What goes on as the rounds do is a run. -/
theorem IsRun.turn {x : Point} {q : Query Progress} {k : Progress → Query (Outcome × Effort)}
    (hround : x.round s = do return (← q).turn)
    (hwithin : (x.spend effort).steps ≤ s.options.maxSteps)
    (hdone : ∀ o, k (.done o) = pure (o, x.spend effort))
    (hfurther : ∀ p' m₁, q.Answers m (.further p') m₁ →
      IsRun s (k (.further p')) p'.point (x.spend effort) m₁)
    (hfork : ∀ ps m₁, q.Answers m (.fork ps) m₁ → AreRuns s (k (.fork ps)) ps {} []
      { x.spend effort with branches := effort.branches + ps.length } m₁) :
    IsRun s (q >>= k) x effort m := by
  rcases hq : q.outcome m with ⟨f | progress, m₁⟩
  · refine ⟨x.events, .error f, m₁, by rw [outcome_bind, hq], .fails hwithin ?_⟩
    rw [hround, outcome_bind, hq]
  · have hturn : (x.round s).Answers m progress.turn m₁ := by
      rw [hround]
      exact answers_bind.2 ⟨progress, m₁, hq, rfl⟩
    have hout : (q >>= k).outcome m = (k progress).outcome m₁ := by rw [outcome_bind, hq]
    cases progress with
    | done o =>
      rw [hdone] at hout
      exact ⟨_, _, m₁, hout, .done hwithin hturn⟩
    | further p' =>
      obtain ⟨log, r, m', hrest, hruns⟩ := hfurther p' m₁ hq
      exact ⟨_, r, m', hout.trans hrest, .next hwithin hturn hruns⟩
    | fork ps =>
      obtain ⟨log, r, m', hrest, hruns⟩ := hfork ps m₁ hq
      exact ⟨_, r, m', hout.trans hrest, .fork hwithin hturn hruns⟩

/-- **Settling comes to an end**: with as many turns as there are unclosed unknowns, it comes to a problem
without ripe unknowns, and what is a run from there is one from the start. -/
theorem settle_runs {n : Nat} (p : Problem) (m : Memory) (hn : Unknown.unclosed p.unknowns < n) :
    ∃ q m₁, q.promote.isRipe = false ∧ (q = p ∨ q.owes < p.owes) ∧
      ∀ {effort : Effort} {k : Problem → Query (Outcome × Effort)},
        effort.steps ≤ s.options.maxSteps → IsRun s (k q.promote) ⟨.settling, q⟩ effort m₁ →
          IsRun s (Problem.settle n p >>= k) ⟨.settling, p⟩ effort m := by
  induction n generalizing p m with
  | zero => exact absurd hn (Nat.not_lt_zero _)
  | succ n ih =>
    rw [Problem.settle]
    cases hripe : p.promote.isRipe with
    | false =>
      refine ⟨p, m, hripe, .inl rfl, fun _ hk => ?_⟩
      rwa [if_neg (by simpa [Problem.isRipe] using hripe), pure_bind]
    | true =>
      obtain ⟨p₁, m₁, hhand⟩ := p.promote.hand_total m
      obtain ⟨hclosed, howes⟩ := Problem.hand_owes hripe hhand
      have hpromote := p.promote_owes
      rw [Problem.promote, Unknown.unclosed_promote] at hclosed
      obtain ⟨q, m₂, hcalm, hless, hback⟩ := ih p₁ m₁ (by omega)
      have hround : (Point.round s ⟨.settling, p⟩).Answers m (.next ⟨.settling, p₁⟩) m₁ := by
        rw [Point.round, if_pos hripe]
        exact answers_bind.2 ⟨p₁, m₁, hhand, rfl⟩
      refine ⟨q, m₂, hcalm, .inr ?_, fun {effort k} hwithin hk => ?_⟩
      · rcases hless with rfl | hlt <;> omega
      · obtain ⟨log, r, m', hout, hruns⟩ := hback hwithin hk
        refine ⟨_, r, m', ?_, .next hwithin hround hruns⟩
        have hhand : p.promote.hand.outcome m = (.ok p₁, m₁) := hhand
        rw [if_pos (by simpa [Problem.isRipe] using hripe), bind_assoc, outcome_bind, hhand]
        exact hout

/-- Without a pending constraint, settling is next. -/
theorem IsRun.start {q : Query (Outcome × Effort)} (hpend : p.pending = [])
    (hsteps : effort.steps ≤ s.options.maxSteps) (h : IsRun s q ⟨.settling, p⟩ effort m) :
    IsRun s q p.point effort m := by
  obtain ⟨log, r, m', hout, hruns⟩ := h
  have hevents : p.point.events = [] := by
    rw [Problem.point, Point.events, Point.reduced, hpend]
    rfl
  have hspend : p.point.spend effort = effort := by
    rw [Problem.point, Point.spend, Point.reduced, hpend]
    rfl
  have hround : (p.point.round s).Answers m (.next ⟨.settling, p⟩) m := by
    rw [Problem.point, Point.round, hpend]
    rfl
  have hrun := Runs.next (by rwa [hspend]) hround (by rwa [hspend])
  rw [hevents] at hrun
  exact ⟨log, r, m', hout, hrun⟩

/-- Behind a branch that does not end the fork, the fork goes on with the next one. -/
theorem searchBranches_behind {exhaustive : Bool} {search : Problem → Effort → Query (Outcome × Effort)}
    {ps : List Problem} {o branch : Outcome} {failures : List Failure} {effort₁ : Effort} {m₁ : Memory}
    (hbranch : (search p effort).Answers m (branch, effort₁) m₁) (hcalm : branch.isRunaway = false)
    (hmore : ¬ ((o.merge branch).isSettled = true ∧ exhaustive = false)) :
    (searchBranches exhaustive search (p :: ps) o failures effort).outcome m =
      (searchBranches exhaustive search ps (o.merge branch) (branch.failuresWith failures)
        effort₁).outcome m₁ := by
  have hbranch : (search p effort).outcome m = (.ok (branch, effort₁), m₁) := hbranch
  rw [searchBranches, outcome_bind, hbranch]
  dsimp only
  rw [if_neg (by simp [hcalm]), if_neg (by simpa using hmore)]
  rfl

/-- **A fork runs its branches in order**, if the search of each branch is a run. -/
theorem searchBranches_runs {search : Problem → Effort → Query (Outcome × Effort)} {ps : List Problem}
    {least : Nat} (hspends : Spends s.options.maxSteps search)
    (hsearch : ∀ p ∈ ps, ∀ effort m, least ≤ effort.steps → effort.steps ≤ s.options.maxSteps →
      IsRun s (search p effort) p.point effort m)
    (o : Outcome) (failures : List Failure) (m : Memory) (hleast : least ≤ effort.steps)
    (hsteps : effort.steps ≤ s.options.maxSteps) :
    AreRuns s (searchBranches s.options.exhaustive search ps o failures effort) ps o failures effort
      m := by
  induction ps generalizing o failures effort m with
  | nil => exact ⟨[], _, m, rfl, .nil⟩
  | cons p ps ih =>
    obtain ⟨log, r, m₁, hbranch, hruns⟩ := hsearch p List.mem_cons_self effort m hleast hsteps
    rcases r with f | ⟨branch, effort₁⟩
    · refine ⟨log, .error f, m₁, ?_, .fails hruns⟩
      rw [searchBranches, outcome_bind, hbranch]
    · have hmore := (hspends.more p effort m _ m₁ hbranch).steps
      have hlimit := hspends.runaway p effort hsteps m _ m₁ hbranch
      cases hrun : branch.isRunaway with
      | true => exact ⟨log, _, m₁, searchBranches_cons.2 ⟨_, m₁, hbranch, .runaway hrun⟩,
          .runaway hruns hrun⟩
      | false =>
        by_cases hsettled : (o.merge branch).isSettled = true ∧ s.options.exhaustive = false
        · exact ⟨log, _, m₁,
            searchBranches_cons.2 ⟨_, m₁, hbranch, .stop hrun hsettled.1 hsettled.2⟩,
            .stop hruns hrun hsettled⟩
        · have hwithin : effort₁.steps ≤ s.options.maxSteps :=
            Nat.not_lt.1 fun hlt => Bool.false_ne_true (hrun.symm.trans (hlimit.2 hlt))
          obtain ⟨more, r, m', hrest, hrunsAll⟩ :=
            ih (fun p hp => hsearch p (List.mem_cons_of_mem _ hp)) (o.merge branch)
              (branch.failuresWith failures) m₁ (hleast.trans hmore) hwithin
          exact ⟨_, r, m', (searchBranches_behind hbranch hrun hsettled).trans hrest,
            .next hruns hrun hsettled hrunsAll⟩

/-- **A search that may be advanced often enough is a run**: as often as there are reductions left and
unknowns that owe something. -/
theorem searchWithin_runs {n : Nat} (p : Problem) (m : Memory)
    (hsteps : effort.steps ≤ s.options.maxSteps)
    (hn : s.options.maxSteps - effort.steps + p.owes < n) :
    IsRun s (searchWithin s n p effort) p.point effort m := by
  induction n generalizing p effort m with
  | zero => exact absurd hn (Nat.not_lt_zero _)
  | succ n ih =>
    rw [searchWithin_succ]
    cases hpend : p.pending with
    | cons c rest =>
      have hspend : p.spend effort = p.point.spend effort := by
        simp [Problem.spend, Problem.point, Point.spend, Point.reduced, hpend]
      have hcount : (p.point.spend effort).steps = effort.steps + 1 := by
        simp [Problem.point, Point.spend, Point.reduced, hpend]
      rw [hspend, Problem.advance, hpend]
      by_cases hover : s.options.maxSteps < (p.point.spend effort).steps
      · rw [if_pos hover]
        exact ⟨_, _, m, rfl, .tripped hover⟩
      · rw [if_neg hover]
        rw [Nat.not_lt] at hover
        have hround : p.point.round s = do return (← p.advanceBy s c rest).turn := by
          rw [Problem.point, Point.round, hpend]
        refine IsRun.turn hround hover (fun o => rfl) (fun p' m₁ h => ?_) fun ps m₁ h => ?_
        · have howes : p'.owes = p.owes := p.advanceBy_owes c rest _ _ _ h _ rfl
          exact ih p' m₁ hover (by omega)
        · refine searchBranches_runs (searchWithin_spends s n) (fun p' hp' effort' m hleast hlimit => ?_)
            {} [] m₁ (Nat.le_refl (p.point.spend effort).steps) hover
          have howes : p'.owes = p.owes := p.advanceBy_owes c rest _ _ _ h p'.point ⟨p', hp', rfl⟩
          exact ih p' m hlimit (by omega)
    | nil =>
      have hspend : p.spend effort = effort := by simp [Problem.spend, hpend]
      obtain ⟨q, m₁, hcalm, hless, hback⟩ :=
        settle_runs (s := s) p m (Nat.lt_succ_of_le List.countP_le_length)
      have hround : (Point.round s ⟨.settling, q⟩) = do return (← q.promote.conclude s).turn := by
        rw [Point.round, if_neg (by simp [hcalm])]
      rw [hspend, if_neg (Nat.not_lt.2 hsteps), Problem.advance, hpend]
      dsimp only
      rw [Problem.advanceSettled_eq, bind_assoc]
      refine .start hpend hsteps (hback hsteps (IsRun.turn hround hsteps (fun o => rfl)
        (fun p' m₂ h => ?_) fun ps m₂ h => ?_))
      · obtain ⟨hle, hlt⟩ := (Problem.conclude_owes hcalm _ _ _ h).2 p' rfl
        have hpromote := q.promote_owes
        refine ih p' m₂ hsteps ?_
        rcases hless with rfl | hless
        · have := hlt hpend
          omega
        · omega
      · exact absurd rfl ((Problem.conclude_owes hcalm _ _ _ h).1 ps)

/-! ### What a run reduces -/

/-- The reductions of a run are within the limit together with the effort before it, and behind them, the
guard may have tripped, once. -/
inductive Within (limit : Nat) (effort : Effort) :
    List Event → Except Failure (Outcome × Effort) → Prop
  | calm (cs : List Constraint) {r : Except Failure (Outcome × Effort)}
      (hcount : effort.steps + cs.length ≤ limit)
      (heffort : ∀ b, r = .ok b → b.2.steps = effort.steps + cs.length) :
      Within limit effort (cs.map .reduced) r
  | tripped (cs : List Constraint) {b : Outcome × Effort}
      (hcount : effort.steps + cs.length ≤ limit) (hrun : b.1.isRunaway = true) :
      Within limit effort (cs.map .reduced ++ [.tripped]) (.ok b)

/-- Reductions made before count as well. -/
theorem Within.after {limit : Nat} {effort effort' : Effort} {log : List Event}
    {r : Except Failure (Outcome × Effort)} (h : Within limit effort' log r) (cs : List Constraint)
    (heffort : effort'.steps = effort.steps + cs.length) :
    Within limit effort (cs.map .reduced ++ log) r := by
  cases h with
  | calm ds hcount hsteps =>
    rw [← List.map_append]
    refine .calm _ (by rw [List.length_append]; omega) fun b hb => ?_
    rw [hsteps b hb, heffort, List.length_append, Nat.add_assoc]
  | tripped ds hcount hrun =>
    rw [← List.append_assoc, ← List.map_append]
    exact .tripped _ (by rw [List.length_append]; omega) hrun

mutual
/-- **A run stays within the limit**, and nothing is reduced after the guard has tripped. -/
theorem Runs.within {x : Point} {effort : Effort} {m m' : Memory} {log : List Event}
    {r : Except Failure (Outcome × Effort)} :
    Runs s x effort m log r m' → effort.steps ≤ s.options.maxSteps →
      Within s.options.maxSteps effort log r
  | .tripped _, hsteps => .tripped [] hsteps rfl
  | .fails hwithin _, _ => .calm _ hwithin nofun
  | .done hwithin _, _ => .calm _ hwithin fun b hb => by cases hb; rfl
  | .next hwithin _ hrest, _ => (hrest.within hwithin).after _ rfl
  | .fork hwithin _ hrest, _ => (hrest.within hwithin).after _ rfl

/-- A run of branches that starts within the limit stays within it. -/
theorem RunsAll.within {ps : List Problem} {o : Outcome} {failures : List Failure} {effort : Effort}
    {m m' : Memory} {log : List Event} {r : Except Failure (Outcome × Effort)} :
    RunsAll s ps o failures effort m log r m' → effort.steps ≤ s.options.maxSteps →
      Within s.options.maxSteps effort log r
  | .nil, hsteps => .calm [] hsteps fun b hb => by cases hb; rfl
  | .fails hbranch, hsteps => hbranch.within hsteps
  | .runaway hbranch hrun, hsteps => by
    cases hbranch.within hsteps with
    | calm cs hcount heffort =>
      have heffort := heffort _ rfl
      exact .calm cs hcount fun b hb => by cases hb; exact heffort
    | tripped cs hcount _ => exact .tripped cs hcount hrun
  | .stop hbranch hcalm _, hsteps => by
    cases hbranch.within hsteps with
    | calm cs hcount heffort =>
      have heffort := heffort _ rfl
      exact .calm cs hcount fun b hb => by cases hb; exact heffort
    | tripped _ _ hrun => cases hrun.symm.trans hcalm
  | .next hbranch hcalm _ hrest, hsteps => by
    have ih := hrest.within
    cases hbranch.within hsteps with
    | calm cs hcount heffort =>
      have heffort := heffort _ rfl
      exact (ih (heffort.trans_le hcount)).after cs heffort
    | tripped _ _ hrun => cases hrun.symm.trans hcalm
end

mutual
/-- **A run fails only if a question fails.** -/
theorem Runs.stumbles {x : Point} {effort : Effort} {m m' : Memory} {log : List Event}
    {r : Except Failure (Outcome × Effort)} :
    Runs s x effort m log r m' → ∀ f, r = .error f → s.Stumbles f m'
  | .tripped _, _, hf => by cases hf
  | .fails _ h, _, hf => by cases hf; exact Point.round_stumbles _ _ _ _ h
  | .done _ _, _, hf => by cases hf
  | .next _ _ hrest, f, hf => hrest.stumbles f hf
  | .fork _ _ hrest, f, hf => hrest.stumbles f hf

/-- A run of branches fails only over a question. -/
theorem RunsAll.stumbles {ps : List Problem} {o : Outcome} {failures : List Failure} {effort : Effort}
    {m m' : Memory} {log : List Event} {r : Except Failure (Outcome × Effort)} :
    RunsAll s ps o failures effort m log r m' → ∀ f, r = .error f → s.Stumbles f m'
  | .nil, _, hf => by cases hf
  | .fails hbranch, f, hf => hbranch.stumbles f (by cases hf; rfl)
  | .runaway _ _, _, hf => by cases hf
  | .stop _ _ _, _, hf => by cases hf
  | .next _ _ _ hrest, f, hf => hrest.stumbles f hf
end

/-- Searching a problem is a run from the point where it begins. -/
theorem search_runs (s : Setting) (p : Problem) (m : Memory) : IsRun s (search s p) p.point {} m := by
  refine searchWithin_runs p m (Nat.zero_le _) ?_
  have howes := p.owes_le
  rw [advancesAtMost]
  dsimp only
  omega

/-- **The search always ends within budget.** For any variables, any constraints and any number of steps,
the search does what a run of rounds does. The constraints that are reduced in it, over all branches, are
no more than the limit; when the guard has tripped, nothing is reduced any more; and if there is no
outcome, then a question that was asked has failed. -/
theorem search_within_budget (s : Setting) (vars : List TypeVar) (cs : List Constraint) (m : Memory) :
    ∃ log r m', (search s ((Problem.start s vars).push cs)).outcome m = (r, m') ∧
      Runs s ((Problem.start s vars).push cs).point {} m log r m' ∧
      (∃ reduced : List Constraint, reduced.length ≤ s.options.maxSteps ∧
        (log = reduced.map .reduced ∨ log = reduced.map .reduced ++ [.tripped])) ∧
      ∀ f, r = .error f → s.Stumbles f m' := by
  obtain ⟨log, r, m', hout, hruns⟩ := search_runs s ((Problem.start s vars).push cs) m
  refine ⟨log, r, m', hout, hruns, ?_, hruns.stumbles⟩
  cases hruns.within (Nat.zero_le _) with
  | calm reduced hcount _ => exact ⟨reduced, by simpa using hcount, .inl rfl⟩
  | tripped reduced hcount _ => exact ⟨reduced, by simpa using hcount, .inr rfl⟩

end Inference
end Generics
