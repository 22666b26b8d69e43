/-
# The limit on reductions

All branches of a search draw on one budget of `maxSteps` reductions. A branch that would need one
reduction more stops as a runaway, and every fork above it stops with it. What the outcome of a
search says about the limit (`search_heeds`):

| reductions counted | outcome |
| --- | --- |
| at most `maxSteps` | no runaway: contradictions and missing information are failures of other kinds |
| `maxSteps + 1`, never more | a runaway, beside the solutions that were found before |

An inference looks at the solutions first. So a runaway is reported unless a branch was solved
before, which takes a fork (`infer_runaway`); a branch that was solved before hides it
(`infer_runaway_hidden`).
-/

import Generics.Catalog.Standard
import Generics.Proofs.Inferring
import Generics.Proofs.Steps

namespace Generics
namespace Inference

open Query

variable {s : Setting} {m m' : Memory} {p : Problem}

/-! ### What is no runaway -/

/-- The outcome is no runaway. -/
def Outcome.Calm (o : Outcome) : Prop := ∀ f, o.failure = some f → f.kind? ≠ some .runaway

/-- An outcome is calm if it is no runaway. -/
theorem Outcome.calm_iff {o : Outcome} : o.Calm ↔ o.isRunaway = false := by
  rw [Calm, isRunaway]
  cases o.failure with
  | none => simp
  | some f => simp

namespace Problem

/-- A problem that is done comes to a calm outcome. -/
theorem outcome_calm (p : Problem) : p.outcome.Calm := by
  intro f hf
  unfold outcome at hf
  dsimp only at hf
  split at hf
  · cases hf
  · cases hf
    simp [Failure.kind?]

/-- **A problem that is done is no runaway.** -/
theorem advance_calm (s : Setting) (p : Problem) :
    Yields (fun progress => ∀ o, progress = .done o → o.Calm) (p.advance s) := by
  intro m progress m' h o ho
  subst ho
  rcases p.advance_comes m _ m' h with ⟨f, hkind, rfl⟩ | ⟨p', -, rfl⟩
  · rintro _ ⟨⟩
    simp [hkind]
  · exact p'.outcome_calm

end Problem

/-! ### The outcome of a search -/

namespace Outcome

/-- Merging is calm. -/
theorem calm_merge (o branch : Outcome) : (o.merge branch).Calm := fun _ h => by cases h

/-- Closing a calm outcome is calm, unless it failed for having run away. -/
theorem calm_close {o : Outcome} {failures : List Failure} (ho : o.Calm)
    (hfailures : ∀ f ∈ failures, f.kind? ≠ some .runaway) : (o.close failures).Calm := by
  unfold close
  split
  · exact ho
  · rintro f ⟨⟩
    unfold blame
    split
    · next f' hfind => exact hfailures f' (List.mem_of_find?_eq_some hfind)
    · cases failures with
      | nil => simp [Failure.kind?]
      | cons f' rest => exact hfailures f' List.mem_cons_self

/-- Solutions of a merged outcome come from one of the two. -/
theorem merge_isSome {o branch : Outcome} (h : (o.merge branch).solutions.isSome = true) :
    o.solutions.isSome = true ∨ branch.solutions.isSome = true := by
  obtain ⟨types, htypes⟩ := Option.isSome_iff_exists.1 h
  exact (merge_solutions htypes).imp (fun h => by rw [h]; rfl) fun h => by rw [h]; rfl

/-- No failure is a runaway behind a branch that is none. -/
theorem Calm.failuresWith {branch : Outcome} (h : branch.Calm) {failures : List Failure}
    (hfailures : ∀ f ∈ failures, f.kind? ≠ some .runaway) :
    ∀ f ∈ branch.failuresWith failures, f.kind? ≠ some .runaway := by
  unfold Outcome.failuresWith
  split
  · exact hfailures
  · exact List.forall_mem_append.2 ⟨hfailures, fun f hf => h f (Option.mem_toList.1 hf)⟩

end Outcome

/-- What a search that started with some effort says about the limit: it is a runaway exactly if it
counted a reduction too many, and then it has solutions only if it forked. -/
structure Heeds (s : Setting) (effort : Effort) (r : Outcome × Effort) : Prop where
  steps : r.2.steps ≤ s.options.maxSteps + 1
  runaway : r.1.isRunaway = true ↔ s.options.maxSteps < r.2.steps
  branches : effort.branches ≤ r.2.branches
  forked : s.options.maxSteps < r.2.steps → r.1.solutions.isSome = true →
    effort.branches + 2 ≤ r.2.branches

/-- An outcome within the limit that is no runaway heeds it. -/
theorem Heeds.of_calm {effort e : Effort} {o : Outcome} (hsteps : e.steps ≤ s.options.maxSteps)
    (hbranches : effort.branches ≤ e.branches) (ho : o.Calm) : Heeds s effort (o, e) where
  steps := Nat.le_succ_of_le hsteps
  runaway := by
    rw [Outcome.calm_iff.1 ho]
    simpa using hsteps
  branches := hbranches
  forked hlt := absurd hlt (Nat.not_lt.2 hsteps)

/-- **A fork heeds the limit**, if its branches do. Solutions beside a runaway come from a branch before
the one that ran away. -/
theorem searchBranches_heeds {search : Problem → Effort → Query (Outcome × Effort)}
    (hsearch : ∀ p effort, effort.steps ≤ s.options.maxSteps → Yields (Heeds s effort) (search p effort))
    (exhaustive : Bool) (ps : List Problem) (o : Outcome) (failures : List Failure) (effort : Effort)
    (heffort : effort.steps ≤ s.options.maxSteps) (ho : o.Calm)
    (hfailures : ∀ f ∈ failures, f.kind? ≠ some .runaway) :
    Yields (fun r => r.2.steps ≤ s.options.maxSteps + 1 ∧
      (r.1.isRunaway = true ↔ s.options.maxSteps < r.2.steps) ∧ effort.branches ≤ r.2.branches ∧
        (s.options.maxSteps < r.2.steps → r.1.solutions.isSome = true →
          o.solutions.isSome = true ∨ 2 ≤ ps.length))
      (searchBranches exhaustive search ps o failures effort) := by
  induction ps generalizing o failures effort with
  | nil =>
    have h := Heeds.of_calm heffort (Nat.le_refl _) (Outcome.calm_close ho hfailures)
    exact .pure ⟨h.steps, h.runaway, h.branches, fun hlt => absurd hlt (Nat.not_lt.2 heffort)⟩
  | cons p ps ih =>
    intro m r m' h
    obtain ⟨⟨branch, effort₁⟩, m₁, hbranch, hgoes⟩ := searchBranches_cons.1 h
    have hheeds := hsearch p effort heffort m _ m₁ hbranch
    have hwithin : branch.isRunaway = false → effort₁.steps ≤ s.options.maxSteps := fun hcalm =>
      Nat.not_lt.1 fun hlt => Bool.false_ne_true (hcalm.symm.trans (hheeds.runaway.2 hlt))
    cases hgoes with
    | runaway _ => exact ⟨hheeds.steps, hheeds.runaway, hheeds.branches, fun _ hsome => .inl hsome⟩
    | stop hcalm _ _ =>
      have hfailures' := (Outcome.calm_iff.2 hcalm).failuresWith hfailures
      have h := Heeds.of_calm (hwithin hcalm) hheeds.branches
        (Outcome.calm_close (Outcome.calm_merge o branch) hfailures')
      exact ⟨h.steps, h.runaway, h.branches, fun hlt => absurd hlt (Nat.not_lt.2 (hwithin hcalm))⟩
    | next hcalm _ hrest =>
      obtain ⟨hle, hiff, hbr, hsolved⟩ := ih (o.merge branch) _ effort₁ (hwithin hcalm)
        (Outcome.calm_merge o branch) ((Outcome.calm_iff.2 hcalm).failuresWith hfailures) _ _ _ hrest
      refine ⟨hle, hiff, hheeds.branches.trans hbr, fun hlt hsome => ?_⟩
      rcases hsolved hlt hsome with hmerged | hlen
      · refine (Outcome.merge_isSome hmerged).imp_right fun _ => ?_
        -- the limit was passed behind this branch, so there is another one
        cases ps with
        | nil =>
          obtain ⟨rfl, rfl⟩ := answers_pure.1 hrest
          exact absurd hlt (Nat.not_lt.2 (hwithin hcalm))
        | cons p' ps => simp
      · exact .inr (Nat.le_succ_of_le hlen)

/-- Spending counts one reduction at most, and no branch. -/
theorem Problem.spend_steps (p : Problem) (effort : Effort) :
    (p.spend effort).steps ≤ effort.steps + 1 ∧ (p.spend effort).branches = effort.branches := by
  unfold spend
  split <;> simp

/-- **A search heeds the limit.** -/
theorem searchWithin_heeds (s : Setting) (n : Nat) (p : Problem) (effort : Effort)
    (heffort : effort.steps ≤ s.options.maxSteps) :
    Yields (Heeds s effort) (searchWithin s n p effort) := by
  induction n generalizing p effort with
  | zero => exact fun _ _ _ h => absurd h answers_throw
  | succ n ih =>
    obtain ⟨hspent, hbranches⟩ := p.spend_steps effort
    rw [searchWithin_succ]
    split
    · next hlt =>
      have hsteps : (p.spend effort).steps ≤ s.options.maxSteps + 1 := by omega
      refine .pure ⟨hsteps, ⟨fun _ => hlt, fun _ => rfl⟩, hbranches.ge, fun _ hsome => ?_⟩
      cases hsome
    · next hle =>
      rw [Nat.not_lt] at hle
      intro m r m' h
      obtain ⟨progress, m₁, hadvance, h⟩ := answers_bind.1 h
      cases progress with
      | done o =>
        obtain ⟨rfl, rfl⟩ := answers_pure.1 h
        exact .of_calm hle hbranches.ge (p.advance_calm s _ _ _ hadvance o rfl)
      | further p' =>
        have hheeds := ih p' (p.spend effort) hle _ _ _ h
        exact ⟨hheeds.steps, hheeds.runaway, hbranches ▸ hheeds.branches, hbranches ▸ hheeds.forked⟩
      | fork branches =>
        obtain ⟨hsteps, hiff, hbr, hsolved⟩ := searchBranches_heeds ih s.options.exhaustive branches {}
          [] ⟨(p.spend effort).steps, (p.spend effort).branches + branches.length⟩ hle
          (fun _ hf => by cases hf) (fun _ hf => by cases hf) _ _ _ h
        dsimp only at hbr
        refine ⟨hsteps, hiff, by omega, fun hlt hsome => ?_⟩
        rcases hsolved hlt hsome with hnone | htwo
        · cases hnone
        · omega

/-- A search heeds the limit. -/
theorem search_heeds (s : Setting) (p : Problem) : Yields (Heeds s {}) (search s p) :=
  searchWithin_heeds s _ p {} (Nat.zero_le _)

/-! ### Inference -/

/-- The search that an inference makes. -/
def inferSearch (s : Setting) (target : Ty) (decl : String) : Query (Outcome × Effort) := do
  let params ← s.params decl
  let seed ← generic decl params
  search s ((Problem.start s params).push [{ lhs := seed.toTy, rel := .below, rhs := target }])

/-- What inferring makes of its search. -/
theorem infer_concluded (s : Setting) (target : Ty) (decl : String) (m : Memory) :
    (infer s target decl).outcome m =
      concluded target decl ((inferSearch s target decl).outcome m) := by
  rw [infer, inferSearch, outcome_bind, outcome_bind]
  rcases (s.params decl).outcome m with ⟨f | params, m₁⟩
  · rfl
  dsimp only
  rw [outcome_bind, outcome_bind]
  rcases (generic decl params).outcome m₁ with ⟨f | seed, m₂⟩
  · rfl
  dsimp only
  rw [outcome_bind]
  rcases (search s _).outcome m₂ with ⟨f | ⟨o, e⟩, m₃⟩
  · rfl
  · cases htypes : o.solutions <;> simp only [concluded, htypes] <;> rfl

/-- **A search that passes the limit is reported, unless a branch was solved before.** The search of an
inference counts at most one reduction too many, and it is a runaway exactly if it does. Then the
inference fails as a runaway if no branch was solved before. Otherwise the search had forked, and the
inference succeeds with the reductions counted. -/
theorem infer_runaway {target : Ty} {decl : String} {o : Outcome} {e : Effort}
    (h : (inferSearch s target decl).Answers m (o, e) m') :
    e.steps ≤ s.options.maxSteps + 1 ∧ (o.isRunaway = true ↔ s.options.maxSteps < e.steps) ∧
      (s.options.maxSteps < e.steps →
        (o.solutions = none → ∃ f, ((infer s target decl).outcome m).1 = .error f ∧
          f.kind? = some .runaway) ∧
        ∀ types, o.solutions = some types → 2 ≤ e.branches ∧
          ∃ i, ((infer s target decl).outcome m).1 = .ok i ∧ i.effort.steps = s.options.maxSteps + 1) := by
  obtain ⟨params, m₁, -, hrest⟩ := answers_bind.1 h
  obtain ⟨seed, m₂, -, hsearch⟩ := answers_bind.1 hrest
  have hheeds := search_heeds s _ _ _ _ hsearch
  have houtcome : (inferSearch s target decl).outcome m = (.ok (o, e), m') := h
  refine ⟨hheeds.steps, hheeds.runaway, fun hlt => ⟨fun hnone => ?_, fun types hsome => ?_⟩⟩
  · have hrun := hheeds.runaway.2 hlt
    rw [infer_concluded, houtcome]
    cases hfail : o.failure with
    | none => simp [Outcome.isRunaway, hfail] at hrun
    | some f =>
      refine ⟨f, by simp [concluded, hnone, hfail], ?_⟩
      simpa [Outcome.isRunaway, hfail] using hrun
  · have hforked := hheeds.forked hlt (by rw [hsome]; rfl)
    have hsteps := hheeds.steps
    dsimp only at hforked hsteps hlt
    refine ⟨by omega, ?_⟩
    rw [infer_concluded, houtcome]
    simp only [concluded, hsome]
    exact ⟨_, rfl, by dsimp only; omega⟩

/-- `Comparable<? super String & Number>` -/
def comparableToBoth : Ty :=
  .nominal ⟨.given 0, [0]⟩ "Comparable" [.wild .object (.inter ⟨.given 0, [19]⟩
    [.nominal ⟨.given 0, [19]⟩ "String" [], .nominal ⟨.given 0, [28]⟩ "Number" []])]

/-- `String` is compared with `Comparable<? super String & Number>` in two branches. With three
reductions the first of them cannot be finished, and this is reported. -/
theorem infer_runaway_reported :
    let s : Setting := { catalog := .standard, options := { maxSteps := 3 } }
    ∃ o e m', (inferSearch s comparableToBoth "String").Answers {} (o, e) m' ∧
      s.options.maxSteps < e.steps ∧ o.solutions = none ∧
        ∃ f, ((infer s comparableToBoth "String").outcome {}).1 = .error f ∧
          f.kind? = some .runaway := by
  intro s
  obtain ⟨⟨o, e⟩, m', hsearch, htest⟩ : ∃ r m',
      (inferSearch s comparableToBoth "String").Answers {} r m' ∧
        (decide (s.options.maxSteps < r.2.steps) && r.1.solutions.isNone) = true :=
    exists_answers (by decide +kernel)
  rw [Bool.and_eq_true, decide_eq_true_eq, Option.isNone_iff_eq_none] at htest
  obtain ⟨-, -, hpassed⟩ := infer_runaway hsearch
  exact ⟨o, e, m', hsearch, htest.1, htest.2, (hpassed htest.1).1 htest.2⟩

/-- **A branch that was solved hides a runaway.** With four reductions the first branch is solved and
the second one runs away; the inference succeeds, counts five reductions, and even calls its result
unique. -/
theorem infer_runaway_hidden :
    let s : Setting := { catalog := .standard, options := { maxSteps := 4 } }
    ((inferSearch s comparableToBoth "String").outcome {}).1.map (fun r => r.1.isRunaway) = .ok true ∧
      ((infer s comparableToBoth "String").outcome {}).1.map
        (fun i => (i.effort.steps, i.unique)) = .ok (5, true) := by
  decide +kernel

end Inference
end Generics
