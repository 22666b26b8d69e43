/-
# Solutions that leave no choice

A search of a simple problem never forks (`searchWithin_simple`). As long as it picks nothing among
bounds, every solution of the problem at the start is one of the problem it has come to. So if it ends
without having picked, its solutions are the only ones (`searchWithin_met`).
-/

import Generics.Proofs.Fillings

namespace Generics
namespace Inference

open Query

variable {s : Setting} {k : Fragment} {vars : List TypeVar} {σ : Var → Ty} {Γ : Scope}
  {m m' : Memory} {μ : Marks}

/-! ### Picking -/

namespace Unknown

/-- What picking does to an unknown: nothing, or a bound that mentions no unknown becomes the
solution. -/
inductive Picked (mentions : Ty → Bool) (u : Unknown) : Unknown → Prop
  | none : Picked mentions u u
  | bound {c : Constraint} : u.closed = false → u.solution = Option.none → c ∈ u.lower ++ u.upper →
    mentions c.rhs = false → Picked mentions u { u with solution := some c.rhs, upper := [], lower := [] }

/-- Picking a solution for an unknown takes one of its bounds or does nothing. -/
theorem pick_picked {u u' : Unknown} {mentions : Ty → Bool}
    (h : (u.pick s mentions).Answers m (.ok u') m') : u.Picked mentions u' := by
  unfold pick at h
  split at h
  · next hclear =>
    simp only [hasClearBounds, Bool.and_eq_true, Bool.not_eq_true', Option.isNone_iff_eq_none,
      List.all_eq_true] at hclear
    obtain ⟨clash, m₁, _, h⟩ := answers_bind.1 h
    cases clash with
    | some c =>
      obtain ⟨herr, _⟩ := answers_pure.1 h
      cases herr
    | none =>
      obtain ⟨found, m₂, hfound, h⟩ := answers_bind.1 h
      cases found with
      | none =>
        obtain ⟨heq, _⟩ := answers_pure.1 h
        cases heq
        exact .none
      | some c =>
        obtain ⟨heq, _⟩ := answers_pure.1 h
        cases heq
        have hc := first?_mem hfound
        exact .bound hclear.1.1.1 hclear.1.1.2 hc (hclear.2 c hc)
  · obtain ⟨heq, _⟩ := answers_pure.1 h
    cases heq
    exact .none

/-- Picking solutions for unknowns takes bounds of theirs or does nothing. -/
theorem pickAll_picked {us us' : List Unknown} {mentions : Ty → Bool}
    (h : (pickAll s mentions us).Answers m (.ok us') m') :
    List.Forall₂ (Picked mentions) us us' := by
  induction us generalizing m m' us' with
  | nil =>
    obtain ⟨heq, _⟩ := answers_pure.1 h
    cases heq
    exact .nil
  | cons u us ih =>
    obtain ⟨r, m₁, hr, h⟩ := answers_bind.1 h
    cases r with
    | error f =>
      obtain ⟨heq, _⟩ := answers_pure.1 h
      cases heq
    | ok u' =>
      obtain ⟨rest, m₂, hrest, h⟩ := answers_bind.1 h
      obtain ⟨heq, _⟩ := answers_pure.1 h
      cases rest with
      | error f => cases heq
      | ok us₁ =>
        cases heq
        exact .cons (pick_picked hr) (ih hrest)

/-- What was picked is ripe, so that without ripe unknowns nothing was picked. -/
theorem eq_of_not_ripe {us us' : List Unknown} {mentions : Ty → Bool}
    (h : List.Forall₂ (Picked mentions) us us') (hripe : us'.any isRipe = false) : us' = us := by
  induction h with
  | nil => rfl
  | @cons u u' us us' hpicked _ ih =>
    rw [List.any_cons, Bool.or_eq_false_iff] at hripe
    rw [ih hripe.2]
    cases hpicked with
    | none => rfl
    | bound hopen _ _ _ =>
      have hclosed := hripe.1
      simp [isRipe, hopen] at hclosed

end Unknown

namespace Problem

variable {p p' : Problem} {r : Progress}

/-- Picking changes the unknowns of a problem only. -/
theorem pick_picked (h : (p.pick s).Answers m (.ok p') m') :
    List.Forall₂ (Unknown.Picked p.mentions) p.unknowns p'.unknowns ∧ p'.pending = p.pending ∧
      p'.picked = p.picked := by
  obtain ⟨us, m₁, hus, h⟩ := answers_bind.1 h
  obtain ⟨heq, _⟩ := answers_pure.1 h
  cases us with
  | error f => cases heq
  | ok us =>
    cases heq
    exact ⟨Unknown.pickAll_picked hus, rfl, rfl⟩

/-- What is picked in a simple problem leaves it simple. -/
theorem pick_simple (hp : p.Tidy s k vars μ) (hsimple : p.Simple s vars)
    (h : (p.pick s).Answers m (.ok p') m') : p'.Simple s vars := by
  obtain ⟨hall, hpend, _⟩ := pick_picked h
  refine ⟨by rw [hpend]; exact hsimple.pending, fun u' hu' c hc => ?_, fun u' hu' t ht => ?_⟩
  · obtain ⟨u, hu, hpicked⟩ := exists_of_forall₂_right hall hu'
    cases hpicked with
    | none => exact hsimple.filed _ hu c hc
    | bound _ _ _ _ =>
      refine hsimple.filed u hu c ?_
      simp only [Unknown.filed, List.nil_append, List.append_nil] at hc
      exact List.mem_append_left _ (List.mem_append_right _ hc)
  · obtain ⟨u, hu, hpicked⟩ := exists_of_forall₂_right hall hu'
    cases hpicked with
    | none => exact hsimple.solved _ hu t ht
    | @bound c _ _ hc hment =>
      rw [Option.some.injEq] at ht
      subst ht
      refine closed_of_mentions hp (hsimple.filed u hu c ?_) hment
      rcases List.mem_append.1 hc with hc | hc
      · exact List.mem_append_right _ hc
      · exact List.mem_append_left _ (List.mem_append_left _ hc)

/-- What settling can come to, from the problem in which equalities are settled. -/
inductive Rests (s : Setting) (m m' : Memory) (p : Problem) : Progress → Prop
  | pending : p.pending ≠ [] → m' = m → Rests s m m' p (.further p)
  | clash {f : Failure} : p.pending = [] → (p.pick s).Answers m (.error f) m' →
    Rests s m m' p (.done { failure := some f })
  | picked {p' : Problem} : p.pending = [] → (p.pick s).Answers m (.ok p') m' → p'.isRipe = true →
    Rests s m m' p (.further { p' with picked := true })
  | done {p' : Problem} : p.pending = [] → (p.pick s).Answers m (.ok p') m' → p'.isRipe = false →
    Rests s m m' p (.done p'.outcome)

/-- What advancing a settled problem comes to, after settling. -/
theorem advanceSettled_rests (h : (p.advanceSettled s).Answers m r m') :
    ∃ p₁ m₁, (settle (p.unknowns.length + 1) p).Answers m p₁ m₁ ∧ p₁.Rests s m₁ m' r := by
  obtain ⟨p₁, m₁, hsettle, h⟩ := answers_bind.1 h
  refine ⟨p₁, m₁, hsettle, ?_⟩
  split at h
  · next hpend =>
    rw [List.isEmpty_iff] at hpend
    obtain ⟨picked, m₂, hpick, h⟩ := answers_bind.1 h
    cases picked with
    | error f =>
      obtain ⟨rfl, rfl⟩ := answers_pure.1 h
      exact .clash hpend hpick
    | ok p₂ =>
      simp only at h
      split at h
      · next hripe =>
        obtain ⟨rfl, rfl⟩ := answers_pure.1 h
        exact .picked hpend hpick hripe
      · next hripe =>
        obtain ⟨rfl, rfl⟩ := answers_pure.1 h
        exact .done hpend hpick (by simpa using hripe)
  · next hpend =>
    obtain ⟨rfl, rfl⟩ := answers_pure.1 h
    exact .pending (by simpa using hpend) rfl

/-- An outcome is ambiguous if something was picked. -/
theorem outcome_ambiguous (p : Problem) : p.outcome.ambiguous = p.picked := by
  unfold outcome
  dsimp only
  split <;> rfl

/-- What advancing a simple problem can come to: its oldest constraint is reduced, or nothing is pending and
it is settled. -/
inductive Advances (s : Setting) (k : Fragment) (vars : List TypeVar) (m m' : Memory) (p : Problem)
    (r : Progress) : Prop
  | moves {c c' : Constraint} {rest : List Constraint} : p.pending = c :: rest →
    c.Becomes (p.solutionsWhere Unknown.closed) c' → c'.toClaim.Simple s vars →
      p.Moves s k m m' c' rest r → Advances s k vars m m' p r
  | settles {p₁ : Problem} {m₁ : Memory} : (settle (p.unknowns.length + 1) p).Answers m p₁ m₁ →
    p₁.Rests s m₁ m' r → Advances s k vars m m' p r

/-- **What one step can do to a simple problem.** -/
theorem advance_cases (hs : s.Regular k) (hplain : s.Plain) (hp : p.Stands s k vars m)
    (hsimple : p.Simple s vars) (h : (p.advance s).Answers m r m') :
    ∃ μ, m.scope.Grounded s k (· ∈ vars) μ ∧ p.Tidy s k vars μ ∧ p.Advances s k vars m m' r := by
  obtain ⟨μ, hg, htidy⟩ := hp.marked
  refine ⟨μ, hg, htidy, ?_⟩
  cases hpend : p.pending with
  | cons c rest =>
    rw [advance, hpend] at h
    obtain ⟨c', hbec, hc', hmoves⟩ := advanceBy_moves hs hplain hp.faithful hg htidy hsimple hpend h
    exact .moves hpend hbec hc' hmoves
  | nil =>
    rw [advance, hpend] at h
    obtain ⟨p₁, m₁, hsettle, hrests⟩ := advanceSettled_rests h
    exact .settles hsettle hrests

/-- **One step leaves a problem simple**, without forks. -/
theorem advance_simple (hs : s.Regular k) (hplain : s.Plain) (hp : p.Stands s k vars m)
    (hsimple : p.Simple s vars) (h : (p.advance s).Answers m r m') :
    (∃ p', r = .further p' ∧ p'.Simple s vars ∧ (p.picked = true → p'.picked = true)) ∨
      ∃ o, r = .done o ∧ ∀ types, o.solutions = some types →
        (∀ t ∈ types, t.Simple s []) ∧ (p.picked = true → o.ambiguous = true) := by
  obtain ⟨μ, hg, htidy, hadvances⟩ := advance_cases hs hplain hp hsimple h
  cases hadvances with
  | moves hpend _ hc' hmoves =>
    cases r with
    | further p' =>
      obtain ⟨hsimple', hpicked⟩ := hmoves.simple hplain hsimple hpend hc'
      exact .inl ⟨p', rfl, hsimple', fun h => hpicked.trans h⟩
    | fork ps => cases hmoves
    | done o =>
      refine .inr ⟨o, rfl, fun types htypes => ?_⟩
      cases hmoves <;> cases htypes
  | settles hsettle hrests =>
    obtain ⟨hst, htidy₁, _⟩ := settle_follows hs hp.faithful htidy hg.clean hsettle
    obtain ⟨hsimple₁, hpicked⟩ := settle_simple hp.faithful hg.clean htidy hsimple hsettle
    cases hrests with
    | pending _ _ => exact .inl ⟨_, rfl, hsimple₁, fun h => hpicked.trans h⟩
    | clash _ _ => exact .inr ⟨_, rfl, fun types htypes => by cases htypes⟩
    | @picked p₂ _ hpick _ =>
      have hsimple₂ := pick_simple htidy₁ hsimple₁ hpick
      exact .inl ⟨_, rfl, ⟨hsimple₂.pending, hsimple₂.filed, hsimple₂.solved⟩, fun _ => rfl⟩
    | @done p₂ _ hpick _ =>
      have hsimple₂ := pick_simple htidy₁ hsimple₁ hpick
      refine .inr ⟨_, rfl, fun types htypes => ⟨fun t ht => ?_, fun hp => ?_⟩⟩
      · obtain ⟨u, hu, hsol⟩ := exists_of_forall₂_right (outcome_solutions htypes) ht
        exact hsimple₂.solved u hu t hsol
      · have hpicked₂ := (pick_picked hpick).2.2
        rw [outcome_ambiguous]
        exact hpicked₂.trans (hpicked.trans hp)

/-- A problem that goes on keeps standing. -/
theorem Stands.further (hs : s.Regular k) (hp : p.Stands s k vars m)
    (h : (p.advance s).Answers m (.further p') m') : p'.Stands s k vars m' := by
  obtain ⟨μ, hg, htidy⟩ := hp.marked
  obtain ⟨hgrows, ν, _, hg', hfollows⟩ := advance_follows hs hp.faithful hp.tame hg htidy h
  exact ⟨hgrows.faithful, hgrows.tame hp.tame, ν, hg', hfollows.1⟩

/-- A problem that goes on stays simple. -/
theorem Simple.further (hs : s.Regular k) (hplain : s.Plain) (hp : p.Stands s k vars m)
    (hsimple : p.Simple s vars) (h : (p.advance s).Answers m (.further p') m') :
    p'.Simple s vars := by
  rcases advance_simple hs hplain hp hsimple h with ⟨_, heq, hsimple', _⟩ | ⟨_, heq, _⟩
  · cases heq
    exact hsimple'
  · cases heq

end Problem

open Problem

/-- **One round of a search of a simple problem that ends with solutions**: it goes on with a simple problem, or
these are the solutions once the problem is settled. -/
theorem searchWithin_round (hs : s.Regular k) (hplain : s.Plain) {n : Nat} {p : Problem} {effort : Effort}
    {r : Outcome × Effort} (hp : p.Stands s k vars m) (hsimple : p.Simple s vars)
    (h : (searchWithin s (n + 1) p effort).Answers m r m') {types : List Ty}
    (htypes : r.1.solutions = some types) :
    (∃ p' m₁, (p.advance s).Answers m (.further p') m₁ ∧ p'.Stands s k vars m₁ ∧ p'.Simple s vars ∧
        (searchWithin s n p' (p.spend effort)).Answers m₁ r m') ∨
      ∃ p₁ m₁, (settle (p.unknowns.length + 1) p).Answers m p₁ m₁ ∧
        List.Forall₂ (fun u t => u.solution = some t) p₁.unknowns types := by
  rw [searchWithin_succ] at h
  split at h
  · obtain ⟨rfl, rfl⟩ := answers_pure.1 h
    cases htypes
  obtain ⟨progress, m₁, hprogress, h⟩ := answers_bind.1 h
  obtain ⟨μ, hg, htidy, hadvances⟩ := advance_cases hs hplain hp hsimple hprogress
  cases progress with
  | further p' =>
    exact .inl ⟨p', m₁, hprogress, hp.further hs hprogress, hsimple.further hs hplain hp hprogress, h⟩
  | fork ps =>
    cases hadvances with
    | moves _ _ _ hmoves => cases hmoves
    | settles _ hrests => cases hrests
  | done o =>
    obtain ⟨rfl, rfl⟩ := answers_pure.1 h
    cases hadvances with
    | moves _ _ _ hmoves => cases hmoves <;> cases htypes
    | settles hsettle hrests =>
      cases hrests with
      | clash _ _ => cases htypes
      | done _ hpick hripe =>
        have hsolved := outcome_solutions htypes
        rw [Unknown.eq_of_not_ripe (pick_picked hpick).1 hripe] at hsolved
        exact .inr ⟨_, _, hsettle, hsolved⟩

/-- **A search of a simple problem never forks**, its solutions are simple, and they are ambiguous
once something was picked. -/
theorem searchWithin_simple (hs : s.Regular k) (hplain : s.Plain) {n : Nat} {p : Problem}
    {effort : Effort} {r : Outcome × Effort} (hp : p.Stands s k vars m) (hsimple : p.Simple s vars)
    (h : (searchWithin s n p effort).Answers m r m') :
    r.2.branches = effort.branches ∧ ∀ types, r.1.solutions = some types →
      (∀ t ∈ types, t.Simple s []) ∧ (p.picked = true → r.1.ambiguous = true) := by
  have hspend : ∀ (p : Problem) (effort : Effort), (p.spend effort).branches = effort.branches := by
    intro p effort
    unfold Problem.spend
    split <;> rfl
  induction n generalizing p effort m with
  | zero => exact absurd h answers_throw
  | succ n ih =>
    rw [searchWithin_succ] at h
    split at h
    · obtain ⟨rfl, rfl⟩ := answers_pure.1 h
      exact ⟨hspend p effort, fun types htypes => by cases htypes⟩
    · obtain ⟨progress, m₁, hprogress, h⟩ := answers_bind.1 h
      rcases advance_simple hs hplain hp hsimple hprogress with
        ⟨p', rfl, hsimple', hpicked⟩ | ⟨o, rfl, ho⟩
      · obtain ⟨hbranches, htypes⟩ := ih (hp.further hs hprogress) hsimple' h
        refine ⟨hbranches.trans (hspend p effort), fun types hsome => ?_⟩
        obtain ⟨hsimple'', hamb⟩ := htypes types hsome
        exact ⟨hsimple'', fun h => hamb (hpicked h)⟩
      · obtain ⟨rfl, rfl⟩ := answers_pure.1 h
        exact ⟨hspend p effort, ho⟩

/-- The solutions of a problem are what is put in, if they agree with that. -/
theorem Problem.Agrees.shapes {p : Problem} (h : p.Agrees σ) (hdomain : p.unknowns.map Unknown.var = vars)
    {types : List Ty} (hall : List.Forall₂ (fun u t => u.solution = some t) p.unknowns types) :
    types.map Ty.shape = vars.map fun v => σ (.declared v) := by
  rw [← hdomain, List.map_map]
  refine List.ext_getElem (by simpa using hall.length_eq.symm) fun i hi hi' => ?_
  rw [List.length_map] at hi hi'
  rw [List.getElem_map, List.getElem_map]
  exact (h _ (List.getElem_mem hi') _ (hall.get hi' hi)).2

/-- **Without a choice there is one solution.** If a search of a simple problem ends with solutions
that are not ambiguous, they are what is put in by any filling that meets the problem. -/
theorem searchWithin_met (hs : s.Regular k) (hplain : s.Plain) (hacyc : s.Acyclic)
    (hσ : Filling s vars σ) {n : Nat} {p : Problem} {effort : Effort} {r : Outcome × Effort}
    (hp : p.Stands s k vars m) (hsimple : p.Simple s vars) (hmet : p.Met s Γ σ)
    (h : (searchWithin s n p effort).Answers m r m') {types : List Ty}
    (htypes : r.1.solutions = some types) (hunique : r.1.ambiguous = false) :
    types.map Ty.shape = vars.map fun v => σ (.declared v) := by
  induction n generalizing p effort m with
  | zero => exact absurd h answers_throw
  | succ n ih =>
    rcases searchWithin_round hs hplain hp hsimple h htypes with
      ⟨p', m₁, hprogress, hstands, hsimple', hnext⟩ | ⟨p₁, m₁, hsettle, hsolved⟩
    · obtain ⟨μ, hg, htidy, hadvances⟩ := advance_cases hs hplain hp hsimple hprogress
      cases hadvances with
      | @moves c _ _ hpend hbec hc' hmoves =>
        have hc : c ∈ p.pending := by rw [hpend]; exact List.mem_cons_self
        have hholds := (hbec.under (hsimple.pending c hc) (htidy.agrees hmet.agrees _)).2
          (hmet.holds.1 c hc)
        exact ih hstands hsimple' ((hmoves.met hs hacyc hσ hpend hmet hc' hholds).1 p' rfl) hnext
      | settles hsettle hrests =>
        have hmet₁ := settle_met hs hacyc hσ hp.faithful hg.clean htidy hsimple hmet hsettle
        cases hrests with
        | pending _ _ => exact ih hstands hsimple' hmet₁ hnext
        | picked _ _ _ =>
          have hamb := ((searchWithin_simple hs hplain hstands hsimple' hnext).2 types htypes).2 rfl
          rw [hunique] at hamb
          cases hamb
    · obtain ⟨μ, hg, htidy⟩ := hp.marked
      obtain ⟨_, htidy₁, _⟩ := settle_follows hs hp.faithful htidy hg.clean hsettle
      have hmet₁ := settle_met hs hacyc hσ hp.faithful hg.clean htidy hsimple hmet hsettle
      exact hmet₁.agrees.shapes htidy₁.domain hsolved

end Inference
end Generics
