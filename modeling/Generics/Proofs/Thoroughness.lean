/-
# Searching every branch

A search leaves out the remaining branches of a fork when its outcome is settled: with solutions, and
ambiguous. The options may ask it to look at every branch all the same. That changes nothing but the
effort (`infer_exhaustively`).

Two searches of one problem, a thorough one and one that leaves branches out, advance alike
(`Problem.advance_alike`) until a fork is settled. A settled outcome keeps its solutions and stays
ambiguous whatever the other branches bring, unless one of them runs away (`searchBranches_settled`).
A fork with a settled branch is settled itself. So at every fork above, either both searches
are still the same, or both have settled outcomes with the same solutions, and the thorough one has
spent more (`Hastens`, `searchWithin_hastens`).
-/

import Generics.Proofs.Depths
import Generics.Proofs.Limits
import Generics.Proofs.Sessions

namespace Generics

/-! ### Settings with other limits -/

namespace Setting

/-- The setting in which a search looks at every branch, or leaves branches out once it is settled. -/
def exhaustively (s : Setting) (exhaustive : Bool) : Setting :=
  { s with options := { s.options with exhaustive } }

/-- The settings differ in the limits of searches only. -/
structure Alike (s' s : Setting) : Prop where
  catalog : s'.catalog = s.catalog
  arrayParents : s'.options.arrayParents = s.options.arrayParents
  depth : s'.depth = s.depth

variable {s s' : Setting}

/-- Thoroughness leaves the limit of reductions as it was. -/
@[simp] theorem maxSteps_exhaustively (s : Setting) (exhaustive : Bool) :
    (s.exhaustively exhaustive).options.maxSteps = s.options.maxSteps := rfl

/-- Thoroughness changes the limits of searches only. -/
theorem exhaustively_alike (s : Setting) (exhaustive : Bool) : (s.exhaustively exhaustive).Alike s :=
  ⟨rfl, rfl, rfl⟩

/-- Comparisons do not see the limits of searches. -/
theorem Alike.below (h : s'.Alike s) : s'.below = s.below := by
  funext a b
  rw [Setting.below, Setting.below, h.depth]
  exact belowWithin_congr s' s h.catalog h.arrayParents _ _ _ _

end Setting

namespace Inference

open Query Setting

variable {s s' : Setting} {m m' : Memory}

/-! ### Problems are advanced alike -/

namespace Constraint

/-- Reducing a comparison of applied declarations does not see them. -/
theorem reduceNominal_alike (h : s'.Alike s) (c : Constraint) (a b : Nominal) :
    c.reduceNominal s' a b = c.reduceNominal s a b := by
  simp only [reduceNominal, inherits_congr s' s h.catalog, isRaw_congr s' s h.catalog,
    supertypeAs_congr s' s h.catalog]

/-- Reducing a comparison does not see them. -/
theorem reduceBelow_alike (h : s'.Alike s) (c : Constraint) (a b : Ty) :
    c.reduceBelow s' a b = c.reduceBelow s a b := by
  rw [reduceBelow.eq_def, reduceBelow.eq_def s]
  simp only [reduceNominal_alike h, upper_congr s' s h.catalog, lower_congr s' s, isArrayParent,
    h.arrayParents]
  rfl

/-- Reducing a constraint without unknowns does not see them. -/
theorem reduceRigid_alike (h : s'.Alike s) (c : Constraint) :
    c.reduceRigid s' = c.reduceRigid s := by
  simp only [reduceRigid, reduceBelow_alike h]

end Constraint

namespace Unknown

/-- Picking a solution does not see them. -/
theorem pick_alike (h : s'.Alike s) (mentions : Ty → Bool) (u : Unknown) :
    u.pick s' mentions = u.pick s mentions := by
  simp only [pick, clash?, admits, h.below]

/-- Picking solutions does not see them. -/
theorem pickAll_alike (h : s'.Alike s) (mentions : Ty → Bool) (us : List Unknown) :
    pickAll s' mentions us = pickAll s mentions us := by
  induction us with
  | nil => rfl
  | cons u us ih => rw [pickAll, pickAll, pick_alike h, ih]

end Unknown

/-- **The limits of searches do not matter for a step.** -/
theorem Problem.advance_alike (h : s'.Alike s) (p : Problem) : p.advance s' = p.advance s := by
  simp only [advance, advanceBy, reduce, advanceSettled, pick, Constraint.reduceRigid_alike h,
    Unknown.pickAll_alike h]

/-! ### What is spent -/

/-- No more was spent. -/
structure Effort.AtMost (e' e : Effort) : Prop where
  steps : e'.steps ≤ e.steps
  branches : e'.branches ≤ e.branches

namespace Effort.AtMost

variable {e e₁ e₂ : Effort}

/-- No more is spent than is spent. -/
theorem refl (e : Effort) : e.AtMost e := ⟨Nat.le_refl _, Nat.le_refl _⟩

/-- Spending at most so much is transitive. -/
theorem trans (h₁ : e.AtMost e₁) (h₂ : e₁.AtMost e₂) : e.AtMost e₂ :=
  ⟨h₁.steps.trans h₂.steps, h₁.branches.trans h₂.branches⟩

end Effort.AtMost

/-- Advancing a problem spends. -/
theorem Problem.atMost_spend (p : Problem) (effort : Effort) : effort.AtMost (p.spend effort) := by
  unfold spend
  split
  · exact .refl effort
  · exact ⟨Nat.le_succ _, Nat.le_refl _⟩

/-- What the search of branches may rely on: effort is never given back, and a branch is a runaway
exactly if it passes the limit. -/
structure Spends (limit : Nat) (search : Problem → Effort → Query (Outcome × Effort)) : Prop where
  more : ∀ p effort, Yields (fun r => effort.AtMost r.2) (search p effort)
  runaway : ∀ p effort, effort.steps ≤ limit →
    Yields (fun r => r.1.isRunaway = true ↔ limit < r.2.steps) (search p effort)

/-- Searching branches gives no effort back if searching each of them does not. -/
theorem searchBranches_more {search : Problem → Effort → Query (Outcome × Effort)}
    (hsearch : ∀ p effort, Yields (fun r => effort.AtMost r.2) (search p effort)) (exhaustive : Bool)
    (ps : List Problem) (o : Outcome) (failures : List Failure) (effort : Effort) :
    Yields (fun r => effort.AtMost r.2) (searchBranches exhaustive search ps o failures effort) := by
  induction ps generalizing o failures effort with
  | nil => exact .pure (.refl effort)
  | cons p ps ih =>
    intro m r m' h
    obtain ⟨⟨branch, effort₁⟩, m₁, hbranch, hgoes⟩ := searchBranches_cons.1 h
    have hmore := hsearch p effort m _ m₁ hbranch
    cases hgoes with
    | runaway _ => exact hmore
    | stop _ _ _ => exact hmore
    | next _ _ hrest => exact hmore.trans (ih _ _ effort₁ _ _ _ hrest)

/-- Searching gives no effort back. -/
theorem searchWithin_more (s : Setting) (n : Nat) (p : Problem) (effort : Effort) :
    Yields (fun r => effort.AtMost r.2) (searchWithin s n p effort) := by
  induction n generalizing p effort with
  | zero => exact fun _ _ _ h => absurd h answers_throw
  | succ n ih =>
    have hspend := p.atMost_spend effort
    rw [searchWithin_succ]
    split
    · exact .pure hspend
    · refine .bind fun progress => ?_
      cases progress with
      | done o => exact .pure hspend
      | further p' => exact fun m r m' h => hspend.trans (ih p' _ m r m' h)
      | fork branches =>
        intro m r m' h
        have hmore := searchBranches_more ih _ _ _ _ _ m r m' h
        exact hspend.trans ⟨hmore.steps, (Nat.le_add_right _ _).trans hmore.branches⟩

/-- **What a search may rely on holds of the search of branches.** -/
theorem searchWithin_spends (s : Setting) (n : Nat) :
    Spends s.options.maxSteps (searchWithin s n) where
  more := searchWithin_more s n
  runaway p effort heffort m r m' h := (searchWithin_heeds s n p effort heffort m r m' h).runaway

/-- Behind the first branch of a fork that stays within the limit, the limit is not passed. -/
theorem Spends.cons {limit : Nat} {search : Problem → Effort → Query (Outcome × Effort)}
    (hsearch : Spends limit search) {exhaustive : Bool} {p : Problem} {ps : List Problem} {o : Outcome}
    {failures : List Failure} {effort : Effort} {r : Outcome × Effort}
    (h : (searchBranches exhaustive search (p :: ps) o failures effort).Answers m r m')
    (hsteps : r.2.steps ≤ limit) :
    ∃ b m₁, (search p effort).Answers m b m₁ ∧ b.2.AtMost r.2 ∧ b.1.isRunaway = false ∧
      Proceeds exhaustive search ps o failures b m₁ r m' := by
  have hmore := searchBranches_more hsearch.more _ _ _ _ _ m r m' h
  obtain ⟨b, m₁, hbranch, hgoes⟩ := searchBranches_cons.1 h
  have hleast : b.2.AtMost r.2 := by
    cases hgoes with
    | runaway _ => exact .refl _
    | stop _ _ _ => exact .refl _
    | next _ _ hrest => exact searchBranches_more hsearch.more _ _ _ _ _ m₁ r m' hrest
  refine ⟨b, m₁, hbranch, hleast, Bool.eq_false_iff.2 fun hrun => ?_, hgoes⟩
  have hlt := (hsearch.runaway p effort (hmore.steps.trans hsteps) m b m₁ hbranch).1 hrun
  exact absurd (hleast.steps.trans hsteps) (Nat.not_le.2 hlt)

/-! ### Settled outcomes -/

namespace Outcome

/-- An outcome is settled if it has two solutions. -/
theorem isSettled_iff {o : Outcome} :
    o.isSettled = true ↔ o.solutions.isSome = true ∧ o.ambiguous = true := by
  rw [isSettled, Bool.and_eq_true]

/-- A settled outcome stays settled, with its solutions, whatever is merged with it. -/
theorem isSettled_merge {o : Outcome} (h : o.isSettled = true) (branch : Outcome) :
    (o.merge branch).isSettled = true ∧ (o.merge branch).solutions = o.solutions := by
  obtain ⟨hsome, hambiguous⟩ := isSettled_iff.1 h
  simp [isSettled, merge, hsome, hambiguous]

/-- Merging a settled outcome settles. -/
theorem isSettled_merge_of_branch {branch : Outcome} (h : branch.isSettled = true) (o : Outcome) :
    (o.merge branch).isSettled = true := by
  obtain ⟨hsome, hambiguous⟩ := isSettled_iff.1 h
  cases ho : o.solutions <;> simp [isSettled, merge, hsome, hambiguous, ho]

/-- Solutions after merging depend on the solutions of what is merged. -/
theorem merge_solutions_congr {branch branch' : Outcome} (h : branch'.solutions = branch.solutions)
    (o : Outcome) : (o.merge branch').solutions = (o.merge branch).solutions := by
  simp only [merge, h]

/-- Closing changes nothing that is settled. -/
theorem isSettled_close {o : Outcome} (h : o.isSettled = true) (failures : List Failure) :
    o.close failures = o := by
  rw [close, if_pos (isSettled_iff.1 h).1]

end Outcome

section Branches

variable {limit : Nat} {search search' : Problem → Effort → Query (Outcome × Effort)}

/-- **A settled outcome stays**, if no branch runs away. -/
theorem searchBranches_settled (hsearch : Spends limit search) {exhaustive : Bool} {ps : List Problem}
    {o : Outcome} {failures : List Failure} {effort : Effort} {r : Outcome × Effort}
    (ho : o.isSettled = true)
    (h : (searchBranches exhaustive search ps o failures effort).Answers m r m')
    (hsteps : r.2.steps ≤ limit) :
    r.1.isSettled = true ∧ r.1.solutions = o.solutions := by
  induction ps generalizing o failures effort m with
  | nil =>
    obtain ⟨rfl, rfl⟩ := answers_pure.1 h
    rw [Outcome.isSettled_close ho]
    exact ⟨ho, rfl⟩
  | cons p ps ih =>
    obtain ⟨⟨branch, effort₁⟩, m₁, hbranch, hsteps₁, hcalm, hgoes⟩ := hsearch.cons h hsteps
    obtain ⟨hmerge, hsolutions⟩ := Outcome.isSettled_merge ho branch
    cases hgoes with
    | runaway hrun => exact absurd hrun (Bool.eq_false_iff.1 hcalm)
    | stop _ _ _ =>
      rw [Outcome.isSettled_close hmerge]
      exact ⟨hmerge, hsolutions⟩
    | next _ _ hrest =>
      obtain ⟨hsettled, hsame⟩ := ih hmerge hrest
      exact ⟨hsettled, hsame.trans hsolutions⟩

/-- A thorough search goes on behind a branch that is no runaway. -/
theorem Proceeds.thorough {ps : List Problem} {o : Outcome} {failures : List Failure}
    {b r : Outcome × Effort} (h : Proceeds true search ps o failures b m r m')
    (hcalm : b.1.isRunaway = false) :
    (searchBranches true search ps (o.merge b.1) (b.1.failuresWith failures) b.2).Answers m r m' := by
  cases h with
  | runaway hrun => exact absurd hrun (Bool.eq_false_iff.1 hcalm)
  | stop _ _ hquick => exact absurd hquick (by decide)
  | next _ _ hrest => exact hrest

/-- A search that may leave branches out stops behind the branch that settles the outcome. -/
theorem searchBranches_stops {p : Problem} {ps : List Problem} {o branch : Outcome}
    {failures : List Failure} {effort effort₁ : Effort}
    (hbranch : (search p effort).Answers m (branch, effort₁) m') (hcalm : branch.isRunaway = false)
    (hmerge : (o.merge branch).isSettled = true) :
    (searchBranches false search (p :: ps) o failures effort).Answers m (o.merge branch, effort₁) m' := by
  have hstop : Proceeds false search ps o failures (branch, effort₁) m' _ m' := .stop hcalm hmerge rfl
  rw [Outcome.isSettled_close hmerge] at hstop
  exact searchBranches_cons.2 ⟨_, _, hbranch, hstop⟩

/-- What a search that may leave branches out makes of a thorough one: the same, or both are settled,
with the same solutions, and no more was spent. -/
def Hastens (quick thorough : (Outcome × Effort) × Memory) : Prop :=
  quick = thorough ∨ quick.1.1.isSettled = true ∧ thorough.1.1.isSettled = true ∧
    quick.1.1.solutions = thorough.1.1.solutions ∧ quick.1.2.AtMost thorough.1.2

/-- **Leaving branches out hastens a fork**, if it hastens its branches. -/
theorem searchBranches_hastens (hspends : Spends limit search) (hspends' : Spends limit search')
    (hsearch : ∀ p effort m r m₁, (search p effort).Answers m r m₁ → r.2.steps ≤ limit →
      ∃ r' m', (search' p effort).Answers m r' m' ∧ Hastens (r', m') (r, m₁))
    {ps : List Problem} {o : Outcome} {failures : List Failure} {effort : Effort} {r : Outcome × Effort}
    {m₁ : Memory} (h : (searchBranches true search ps o failures effort).Answers m r m₁)
    (hsteps : r.2.steps ≤ limit) :
    ∃ r' m', (searchBranches false search' ps o failures effort).Answers m r' m' ∧
      Hastens (r', m') (r, m₁) := by
  induction ps generalizing o failures effort m with
  | nil =>
    obtain ⟨rfl, rfl⟩ := answers_pure.1 h
    exact ⟨_, _, answers_pure.2 ⟨rfl, rfl⟩, .inl rfl⟩
  | cons p ps ih =>
    have heffort := (searchBranches_more hspends.more _ _ _ _ _ m r m₁ h).steps.trans hsteps
    obtain ⟨⟨branch, effort₁⟩, m₂, hbranch, hmore₁, hcalm, hgoes⟩ := hspends.cons h hsteps
    have hrest := hgoes.thorough hcalm
    -- once the outcome is settled, the thorough search goes on without it being changed
    have hafter := fun hmerge : (o.merge branch).isSettled = true =>
      searchBranches_settled hspends hmerge hrest hsteps
    obtain ⟨⟨branch', effort₁'⟩, m₂', hbranch', hsame | ⟨hsettled', hsettled, hsolutions, hleast⟩⟩ :=
      hsearch p effort m _ m₂ hbranch (hmore₁.steps.trans hsteps)
    · obtain ⟨⟨rfl, rfl⟩, rfl⟩ : (branch' = branch ∧ effort₁' = effort₁) ∧ m₂' = m₂ := by
        simpa using hsame
      by_cases hmerge : (o.merge branch').isSettled = true
      · obtain ⟨hsettled, hsolutions⟩ := hafter hmerge
        exact ⟨_, m₂', searchBranches_stops hbranch' hcalm hmerge,
          .inr ⟨hmerge, hsettled, hsolutions.symm, hmore₁⟩⟩
      · obtain ⟨r', m', hrest', hhastens⟩ := ih hrest
        exact ⟨r', m', searchBranches_cons.2 ⟨_, _, hbranch',
          .next hcalm (fun hsettled => hmerge hsettled.1) hrest'⟩, hhastens⟩
    · -- the branch was cut short: the fork is settled here in both searches
      have hcalm' : branch'.isRunaway = false := by
        refine Bool.eq_false_iff.2 fun hrun => ?_
        have hlt := (hspends'.runaway p effort heffort m _ _ hbranch').1 hrun
        exact absurd (hleast.steps.trans (hmore₁.steps.trans hsteps)) (Nat.not_le.2 hlt)
      have hmerge' := Outcome.isSettled_merge_of_branch hsettled' o
      obtain ⟨hend, hkept⟩ := hafter (Outcome.isSettled_merge_of_branch hsettled o)
      exact ⟨_, m₂', searchBranches_stops hbranch' hcalm' hmerge', .inr ⟨hmerge', hend,
        (Outcome.merge_solutions_congr hsolutions o).trans hkept.symm, hleast.trans hmore₁⟩⟩

end Branches

/-! ### Searches and inferences -/

/-- **Leaving branches out hastens a search** that stays within the limit. -/
theorem searchWithin_hastens (s : Setting) (n : Nat) (p : Problem) (effort : Effort) (m : Memory)
    (r : Outcome × Effort) (m₁ : Memory)
    (h : (searchWithin (s.exhaustively true) n p effort).Answers m r m₁)
    (hsteps : r.2.steps ≤ s.options.maxSteps) :
    ∃ r' m', (searchWithin (s.exhaustively false) n p effort).Answers m r' m' ∧
      Hastens (r', m') (r, m₁) := by
  induction n generalizing p effort m r m₁ with
  | zero => exact absurd h answers_throw
  | succ n ih =>
    rw [searchWithin_succ, Problem.advance_alike (exhaustively_alike s true), maxSteps_exhaustively] at h
    rw [searchWithin_succ, Problem.advance_alike (exhaustively_alike s false), maxSteps_exhaustively]
    split at h
    · next hlt =>
      rw [if_pos hlt]
      exact ⟨r, m₁, h, .inl rfl⟩
    · next hle =>
      rw [if_neg hle]
      obtain ⟨progress, m₂, hadvance, h⟩ := answers_bind.1 h
      suffices ∃ r' m', _ ∧ Hastens (r', m') (r, m₁) by
        obtain ⟨r', m', hanswers, hhastens⟩ := this
        exact ⟨r', m', answers_bind.2 ⟨progress, m₂, hadvance, hanswers⟩, hhastens⟩
      cases progress with
      | done o => exact ⟨r, m₁, h, .inl rfl⟩
      | further p' => exact ih p' _ m₂ r m₁ h hsteps
      | fork branches =>
        exact searchBranches_hastens (searchWithin_spends (s.exhaustively true) n)
          (searchWithin_spends (s.exhaustively false) n) ih h hsteps

/-- The inference found the same, and no more was spent. Where the result was built is left open. -/
structure Inferred.Hastens (quick thorough : Inferred) : Prop where
  target : quick.target = thorough.target
  decl : quick.decl = thorough.decl
  result : quick.result.decl = thorough.result.decl ∧ quick.result.args = thorough.result.args
  unique : quick.unique = thorough.unique
  steps : quick.effort.steps ≤ thorough.effort.steps
  branches : quick.effort.branches ≤ thorough.effort.branches

/-- **A search for arguments that may leave branches out** finds what the thorough one does, with no
more effort. -/
theorem inferSearch_hastens {target : Ty} {decl : String} {r : Outcome × Effort} {m₁ : Memory}
    (h : (inferSearch (s.exhaustively true) target decl).Answers m r m₁)
    (hsteps : r.2.steps ≤ s.options.maxSteps) :
    ∃ r' m', (inferSearch (s.exhaustively false) target decl).Answers m r' m' ∧
      Hastens (r', m') (r, m₁) := by
  obtain ⟨params, m₂, hparams, h⟩ := answers_bind.1 h
  obtain ⟨seed, m₃, hseed, h⟩ := answers_bind.1 h
  obtain ⟨r', m', hsearch, hhastens⟩ := searchWithin_hastens s _ _ _ m₃ r m₁ h hsteps
  refine ⟨r', m', answers_bind.2 ⟨params, m₂, ?_, answers_bind.2 ⟨seed, m₃, hseed, hsearch⟩⟩,
    hhastens⟩
  exact hparams

/-- **Searching every branch changes nothing but the effort.** If an inference that looks at every branch
is answered within the limit on reductions, then one that leaves branches out fails in the same way,
or it succeeds with the same result, as unique as before, and with no more reductions and branches. What
the two have learnt about declarations before may differ; the captured variables are the same. -/
theorem infer_exhaustively {target : Ty} {decl : String} {o : Outcome} {e : Effort} {m₁ : Memory}
    (hm : m.Faithful s) (hm' : m'.Faithful s) (hlearns : m.Learns m')
    (h : (inferSearch (s.exhaustively true) target decl).Answers m (o, e) m₁)
    (hsteps : e.steps ≤ s.options.maxSteps) :
    (∃ f, ((infer (s.exhaustively true) target decl).outcome m).1 = .error f ∧
      ((infer (s.exhaustively false) target decl).outcome m').1 = .error f) ∨
    ∃ thorough quick, ((infer (s.exhaustively true) target decl).outcome m).1 = .ok thorough ∧
      ((infer (s.exhaustively false) target decl).outcome m').1 = .ok quick ∧
        quick.Hastens thorough := by
  have hcomposed : Stays (s.exhaustively false) .all (infer (s.exhaustively false) target decl) :=
    infer_composed (Realm.closed_all _) target.in_all trivial
  have hsame := (hcomposed.oblivious.same m m' hm hm' hlearns).1
  obtain ⟨⟨o', e'⟩, m₁', h', hhastens⟩ := inferSearch_hastens h hsteps
  have hthorough : (inferSearch (s.exhaustively true) target decl).outcome m = (.ok (o, e), m₁) := h
  have hquick : (inferSearch (s.exhaustively false) target decl).outcome m = (.ok (o', e'), m₁') := h'
  rw [hsame, infer_concluded, infer_concluded, hthorough, hquick]
  rcases hhastens with hsame | ⟨hsettled', hsettled, hsolutions, hleast⟩
  · obtain ⟨⟨rfl, rfl⟩, rfl⟩ : (o' = o ∧ e' = e) ∧ m₁' = m₁ := by simpa using hsame
    cases htypes : o'.solutions with
    | none =>
      simp only [concluded, htypes]
      exact .inl ⟨_, rfl, rfl⟩
    | some types =>
      simp only [concluded, htypes]
      exact .inr ⟨_, _, rfl, rfl, rfl, rfl, ⟨rfl, rfl⟩, rfl, Nat.le_refl _, Nat.le_refl _⟩
  · obtain ⟨hsome, hambiguous⟩ : o.solutions.isSome = true ∧ o.ambiguous = true :=
      Outcome.isSettled_iff.1 hsettled
    have hambiguous' : o'.ambiguous = true := (Outcome.isSettled_iff.1 hsettled').2
    obtain ⟨types, htypes⟩ := Option.isSome_iff_exists.1 hsome
    have htypes' : o'.solutions = some types := hsolutions.trans htypes
    simp only [concluded, htypes, htypes', hambiguous, hambiguous']
    exact .inr ⟨_, _, rfl, rfl, rfl, rfl, ⟨rfl, rfl⟩, rfl, hleast.steps, hleast.branches⟩

/-- `Collection<? super String & Number>` -/
def collectionOfBoth : Ty :=
  .nominal ⟨.given 0, [0]⟩ "Collection" [.wild .object (.inter ⟨.given 0, [19]⟩
    [.nominal ⟨.given 0, [19]⟩ "String" [], .nominal ⟨.given 0, [28]⟩ "Number" []])]

/-- The elements of an `ArrayList` that is a `Collection<? super String & Number>` may be `String` or
`Number`. The first branch picks `String`, which settles the outcome; looking at the other branches
finds nothing else, with twice as many reductions. -/
theorem infer_exhaustively_lists :
    let s : Setting := { catalog := .standard }
    ∃ o e m₁, (inferSearch (s.exhaustively true) collectionOfBoth "ArrayList").Answers {} (o, e) m₁ ∧
      e.steps ≤ s.options.maxSteps ∧
        ∃ thorough quick,
          ((infer (s.exhaustively true) collectionOfBoth "ArrayList").outcome {}).1 = .ok thorough ∧
          ((infer (s.exhaustively false) collectionOfBoth "ArrayList").outcome {}).1 = .ok quick ∧
            quick.Hastens thorough ∧ thorough.effort = ⟨12, 5⟩ ∧ quick.effort = ⟨6, 3⟩ := by
  intro s
  have hefforts :
      ((infer (s.exhaustively true) collectionOfBoth "ArrayList").outcome {}).1.map Inferred.effort =
        .ok ⟨12, 5⟩ ∧
      ((infer (s.exhaustively false) collectionOfBoth "ArrayList").outcome {}).1.map Inferred.effort =
        .ok ⟨6, 3⟩ := by decide +kernel
  obtain ⟨⟨o, e⟩, m₁, hsearch, htest⟩ : ∃ r m₁,
      (inferSearch (s.exhaustively true) collectionOfBoth "ArrayList").Answers {} r m₁ ∧
        decide (r.2.steps ≤ s.options.maxSteps) = true :=
    exists_answers (by decide +kernel)
  have hsteps : e.steps ≤ s.options.maxSteps := of_decide_eq_true htest
  refine ⟨o, e, m₁, hsearch, hsteps, ?_⟩
  rcases infer_exhaustively (Memory.faithful_empty s) (Memory.faithful_empty s) (.refl {}) hsearch hsteps
    with ⟨f, hf, -⟩ | ⟨thorough, quick, hthorough, hquick, hhastens⟩
  · rw [hf] at hefforts
    cases hefforts.1
  · rw [hthorough, hquick] at hefforts
    exact ⟨thorough, quick, hthorough, hquick, hhastens, Except.ok.inj hefforts.1,
      Except.ok.inj hefforts.2⟩

end Inference
end Generics
