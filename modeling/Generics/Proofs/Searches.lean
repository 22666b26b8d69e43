/-
# Searches are sound

A search advances a problem until nothing is left to do, through forks into branches that share one
memory. `searchWithin_solved` is the invariant of whole searches: if a search ends with solutions, then the
problem leads to one without constraints whose unknowns have these solutions. So, when the solutions
mention no variable, every constraint that the search was asked for holds with the solutions put
in (`search_below`), however it was moved between the pending ones and the filed ones on the way.
-/

import Generics.Proofs.Settlings

namespace Generics
namespace Inference

open Query

variable {s : Setting} {k : Fragment} {vars : List TypeVar} {m m' : Memory} {p p' : Problem}
  {types : List Ty}

namespace Problem

/-- A problem that is tidy where the memory is in order. -/
structure Stands (s : Setting) (k : Fragment) (vars : List TypeVar) (m : Memory) (p : Problem) :
    Prop where
  faithful : m.Faithful s
  tame : m.Tame s k
  marked : ∃ μ, m.scope.Grounded s k (· ∈ vars) μ ∧ p.Tidy s k vars μ

/-- A problem keeps standing when more is captured. -/
theorem Stands.grows (h : p.Stands s k vars m) (hm : m.Grows s k m') : p.Stands s k vars m' := by
  obtain ⟨μ, hg, hp⟩ := h.marked
  exact ⟨hm.faithful, hm.tame h.tame, μ, hg.mono hm.le, hp⟩

/-- What leads on does so in a memory that grew. -/
theorem Leads.grows {m₁ : Memory} (h : Leads s k vars m m₁ p p') (hm : m₁.Grows s k m') :
    Leads s k vars m m' p p' where
  kept := h.kept
  holds σ hagree hholds := h.holds σ hagree
    ⟨fun c hc => holds_mono hm.le (hholds.1 c hc),
      fun u hu c hc => holds_mono hm.le (hholds.2 u hu c hc)⟩

/-- The problem leads to one without constraints whose unknowns have the given solutions. -/
def Solved (s : Setting) (k : Fragment) (vars : List TypeVar) (m : Memory) (p : Problem)
    (types : List Ty) : Prop :=
  ∃ m' μ p', m'.scope.Grounded s k (· ∈ vars) μ ∧ p'.Tidy s k vars μ ∧
    Leads s k vars m m' p p' ∧ (∀ P, p'.Holds P) ∧
    List.Forall₂ (fun u t => u.solution = some t) p'.unknowns types

/-- A problem that leads to a solved one is solved. -/
theorem Solved.of_leads (h : Leads s k vars m m' p p') (hp : p'.Solved s k vars m' types) :
    p.Solved s k vars m types := by
  obtain ⟨m₁, μ, p₁, hg, htidy, hlead, hdone⟩ := hp
  exact ⟨m₁, μ, p₁, hg, htidy, h.trans hlead, hdone⟩

end Problem

open Problem

/-- The effort after a problem is advanced: one reduction more, if a constraint is pending. -/
def Problem.spend (p : Problem) (effort : Effort) : Effort :=
  if p.pending.isEmpty then effort else { effort with steps := effort.steps + 1 }

/-- **One more round of a search**: it runs away past the limit, and else goes on with the advanced
problem. -/
theorem searchWithin_succ (n : Nat) (p : Problem) (effort : Effort) :
    searchWithin s (n + 1) p effort =
      if s.options.maxSteps < (p.spend effort).steps then pure (p.runaway s, p.spend effort)
      else p.advance s >>= fun
        | .done o => pure (o, p.spend effort)
        | .further p' => searchWithin s n p' (p.spend effort)
        | .fork branches => searchBranches s.options.exhaustive (searchWithin s n) branches {} []
            { p.spend effort with branches := (p.spend effort).branches + branches.length } := by
  rw [searchWithin]
  rfl

/-- Searching a problem captures more, and if it ends with solutions, the problem is solved. -/
def Searches (s : Setting) (k : Fragment) (vars : List TypeVar)
    (search : Problem → Effort → Query (Outcome × Effort)) : Prop :=
  ∀ p effort m r m', p.Stands s k vars m → (search p effort).Answers m r m' →
    m.Grows s k m' ∧ ∀ types, r.1.solutions = some types → p.Solved s k vars m types

/-- Closing an outcome keeps its solutions. -/
theorem Outcome.close_solutions (o : Outcome) (failures : List Failure) :
    (o.close failures).solutions = o.solutions := by
  unfold close
  split <;> rfl

/-- Solutions of merged outcomes are those of one of them. -/
theorem Outcome.merge_solutions {o branch : Outcome} {types : List Ty}
    (h : (o.merge branch).solutions = some types) :
    o.solutions = some types ∨ branch.solutions = some types := by
  unfold merge at h
  dsimp only at h
  split at h
  · exact .inl h
  · exact .inr h

/-- The failures of a fork with that of one more branch, if it has failed. -/
def Outcome.failuresWith (branch : Outcome) (failures : List Failure) : List Failure :=
  if branch.solutions.isSome then failures else failures ++ branch.failure.toList

/-- How a fork goes on behind a branch, from what that branch left to what the fork leaves: it runs away
with the branch, it stops because the outcome is settled, or the other branches follow. -/
inductive Proceeds (exhaustive : Bool) (search : Problem → Effort → Query (Outcome × Effort))
    (ps : List Problem) (o : Outcome) (failures : List Failure) :
    Outcome × Effort → Memory → Outcome × Effort → Memory → Prop
  | runaway {branch : Outcome} {effort : Effort} {m : Memory} (hrun : branch.isRunaway = true) :
      Proceeds exhaustive search ps o failures (branch, effort) m
        ({ o with failure := branch.failure }, effort) m
  | stop {branch : Outcome} {effort : Effort} {m : Memory} (hcalm : branch.isRunaway = false)
      (hsettled : (o.merge branch).isSettled = true) (hquick : exhaustive = false) :
      Proceeds exhaustive search ps o failures (branch, effort) m
        ((o.merge branch).close (branch.failuresWith failures), effort) m
  | next {branch : Outcome} {effort : Effort} {m m' : Memory} {r : Outcome × Effort}
      (hcalm : branch.isRunaway = false)
      (hmore : ¬ ((o.merge branch).isSettled = true ∧ exhaustive = false))
      (hrest : (searchBranches exhaustive search ps (o.merge branch) (branch.failuresWith failures)
        effort).Answers m r m') :
      Proceeds exhaustive search ps o failures (branch, effort) m r m'

/-- **A fork is searched branch by branch.** -/
theorem searchBranches_cons {exhaustive : Bool} {search : Problem → Effort → Query (Outcome × Effort)}
    {ps : List Problem} {o : Outcome} {failures : List Failure} {effort : Effort}
    {r : Outcome × Effort} :
    (searchBranches exhaustive search (p :: ps) o failures effort).Answers m r m' ↔
      ∃ b m₁, (search p effort).Answers m b m₁ ∧ Proceeds exhaustive search ps o failures b m₁ r m' := by
  rw [searchBranches, answers_bind]
  refine exists_congr fun ⟨branch, effort₁⟩ => exists_congr fun m₁ => and_congr_right fun _ => ?_
  dsimp only
  constructor
  · intro h
    split at h
    · next hrun =>
      obtain ⟨rfl, rfl⟩ := answers_pure.1 h
      exact .runaway hrun
    · next hcalm =>
      rw [Bool.not_eq_true] at hcalm
      split at h
      · next hstop =>
        rw [Bool.and_eq_true, Bool.not_eq_true'] at hstop
        obtain ⟨rfl, rfl⟩ := answers_pure.1 h
        exact .stop hcalm hstop.1 hstop.2
      · next hmore =>
        rw [Bool.and_eq_true, Bool.not_eq_true'] at hmore
        exact .next hcalm hmore h
  · intro h
    cases h with
    | runaway hrun =>
      rw [if_pos hrun]
      exact answers_pure.2 ⟨rfl, rfl⟩
    | stop hcalm hsettled hquick =>
      rw [if_neg (by simp [hcalm]), if_pos (by simp [hsettled, hquick])]
      exact answers_pure.2 ⟨rfl, rfl⟩
    | next hcalm hmore hrest =>
      rw [if_neg (by simp [hcalm]), if_neg (by simpa using hmore)]
      exact hrest

/-- The solutions of a fork are those of a branch. -/
theorem searchBranches_solved {search : Problem → Effort → Query (Outcome × Effort)}
    (hsearch : Searches s k vars search) {exhaustive : Bool} {ps : List Problem} {o : Outcome}
    {failures : List Failure} {effort : Effort} {r : Outcome × Effort} (hm : m.Faithful s)
    (hps : ∀ p ∈ ps, p.Stands s k vars m)
    (h : (searchBranches exhaustive search ps o failures effort).Answers m r m') :
    m.Grows s k m' ∧ ∀ types, r.1.solutions = some types → o.solutions = some types ∨
      ∃ p ∈ ps, ∃ m₁, m.Grows s k m₁ ∧ p.Solved s k vars m₁ types := by
  induction ps generalizing o failures effort m with
  | nil =>
    obtain ⟨rfl, rfl⟩ := answers_pure.1 h
    exact ⟨.refl hm, fun types htypes => .inl (by rwa [Outcome.close_solutions] at htypes)⟩
  | cons p ps ih =>
    obtain ⟨⟨branch, effort₁⟩, m₁, hbranch, hgoes⟩ := searchBranches_cons.1 h
    obtain ⟨hgrows, hsolved⟩ := hsearch p effort m _ m₁ (hps p List.mem_cons_self) hbranch
    have hhere : ∀ types, (o.merge branch).solutions = some types → o.solutions = some types ∨
        ∃ p' ∈ p :: ps, ∃ m₁, m.Grows s k m₁ ∧ p'.Solved s k vars m₁ types := by
      intro types htypes
      refine (Outcome.merge_solutions htypes).imp_right fun hbr => ?_
      exact ⟨p, List.mem_cons_self, m, .refl hm, hsolved types hbr⟩
    cases hgoes with
    | runaway _ => exact ⟨hgrows, fun types htypes => .inl htypes⟩
    | stop _ _ _ =>
      exact ⟨hgrows, fun types htypes => hhere types (by rwa [Outcome.close_solutions] at htypes)⟩
    | next _ _ hrest =>
      obtain ⟨hgrows', hrest⟩ := ih hgrows.faithful
        (fun p' hp' => (hps p' (List.mem_cons_of_mem _ hp')).grows hgrows) hrest
      refine ⟨hgrows.trans hgrows', fun types htypes => ?_⟩
      rcases hrest types htypes with hmerged | ⟨p', hp', m₂, hgrows₂, hp'solved⟩
      · exact hhere types hmerged
      · exact .inr ⟨p', List.mem_cons_of_mem _ hp', m₂, hgrows.trans hgrows₂, hp'solved⟩

/-- **If a search ends with solutions, the problem is solved.** -/
theorem searchWithin_solved (hs : s.Regular k) (n : Nat) :
    Searches s k vars (searchWithin s n) := by
  induction n with
  | zero =>
    intro p effort m r m' _ h
    exact absurd h answers_throw
  | succ n ih =>
    intro p effort m r m' hp h
    rw [searchWithin_succ] at h
    obtain ⟨μ, hg, htidy⟩ := hp.marked
    split at h
    · obtain ⟨rfl, rfl⟩ := answers_pure.1 h
      exact ⟨.refl hp.faithful, fun types htypes => by cases htypes⟩
    · obtain ⟨progress, m₁, hprogress, h⟩ := answers_bind.1 h
      obtain ⟨hgrows, ν, hle, hg', hfollows⟩ :=
        advance_follows hs hp.faithful hp.tame hg htidy hprogress
      have htame := hgrows.tame hp.tame
      cases progress with
      | done o =>
        obtain ⟨rfl, rfl⟩ := answers_pure.1 h
        refine ⟨hgrows, fun types htypes => ?_⟩
        obtain ⟨p', hp'⟩ := hfollows types htypes
        exact ⟨_, ν, p', hg', hp'⟩
      | further p' =>
        obtain ⟨htidy', hlead⟩ := hfollows
        obtain ⟨hgrows', hsolved⟩ :=
          ih p' _ m₁ r m' ⟨hgrows.faithful, htame, ν, hg', htidy'⟩ h
        exact ⟨hgrows.trans hgrows', fun types htypes => .of_leads hlead (hsolved types htypes)⟩
      | fork branches =>
        obtain ⟨hgrows', hsolved⟩ := searchBranches_solved ih hgrows.faithful
          (fun p' hp' => ⟨hgrows.faithful, htame, ν, hg', (hfollows p' hp').1⟩) h
        refine ⟨hgrows.trans hgrows', fun types htypes => ?_⟩
        rcases hsolved types htypes with hnone | ⟨p', hp', m₂, hgrows₂, hp'solved⟩
        · cases hnone
        · exact .of_leads ((hfollows p' hp').2.grows hgrows₂) hp'solved

end Inference

/-! ### Putting the solutions in -/

/-- A variable paired with a type is given that type, since keys are different. -/
theorem Subst.lookup_zip_of_mem {vs : List TypeVar} {ts : List Ty} (hlen : vs.length = ts.length)
    (hnodup : (vs.map TypeVar.key).Nodup) {v : TypeVar} {t : Ty} (h : (v, t) ∈ vs.zip ts) :
    (Subst.zip vs ts).lookup (.declared v) = some t := by
  obtain ⟨hv, _⟩ := List.of_mem_zip h
  have hsome : ((Subst.zip vs ts).lookup (.declared v)).isSome = true :=
    lookup_zip_isSome (Nat.le_of_eq hlen) hv
  obtain ⟨t', ht'⟩ := Option.isSome_iff_exists.1 hsome
  obtain ⟨w, hmem, hkey⟩ := mem_zip_of_lookup ht'
  obtain rfl : w = v := List.inj_on_of_nodup_map hnodup (List.of_mem_zip hmem).1 hv hkey
  obtain ⟨i, hi, hi'⟩ := List.getElem_of_mem h
  obtain ⟨j, hj, hj'⟩ := List.getElem_of_mem hmem
  rw [List.getElem_zip, Prod.mk.injEq] at hi' hj'
  have hij : i = j := (List.Nodup.getElem_inj_iff hnodup.of_map).1 (hi'.1.trans hj'.1.symm)
  subst hij
  rw [ht', ← hj'.2, hi'.2]

/-- Variables paired with types are given the shapes of these types. -/
theorem Subst.image_zip {vs : List TypeVar} {ts : List Ty} (hlen : vs.length = ts.length)
    (hnodup : (vs.map TypeVar.key).Nodup) :
    (vs.map fun v => (Subst.zip vs ts).image (.declared v)) = ts.map Ty.shape := by
  refine List.ext_getElem (by simpa using hlen) fun i hi hi' => ?_
  rw [List.length_map] at hi hi'
  have hmem : (vs[i], ts[i]) ∈ vs.zip ts :=
    List.mem_iff_getElem.2 ⟨i, by rw [List.length_zip]; omega, List.getElem_zip⟩
  rw [List.getElem_map, List.getElem_map, image_of_some (lookup_zip_of_mem hlen hnodup hmem)]

/-- No scope has bounds to be in order for no variables. -/
theorem Scope.sound_empty (s : Setting) (k : Fragment) (Γ : Scope) : Γ.Sound s k fun _ => False :=
  ⟨fun _ => False.elim, fun _ => False.elim, fun _ => False.elim, fun _ => False.elim,
    fun _ => False.elim⟩

/-- The realization that puts types without variables in for unknowns, in any scope. -/
def Realization.ofClosed {s : Setting} {k : Fragment} (Γ Δ : Scope) {U : TypeVar → Prop}
    {σ : Var → Ty} (hsite : Siteless σ) (hproper : ∀ v, (σ v).isInter = false ∧ (σ v).isPrim = false)
    (hσ : ∀ w, U w → (σ (.declared w)).Regular s k ∧ (σ (.declared w)).vars = []) :
    Realization s k Γ U σ where
  scope := Δ
  among := fun _ => False
  has v := ∃ w, v = .declared w ∧ U w
  put := σ
  sound := Δ.sound_empty s k
  siteless := hsite
  proper := hproper
  regular v hv := by
    obtain ⟨w, rfl, hw⟩ := hv
    refine ⟨(hσ w hw).1, fun x hx => ?_⟩
    rw [(hσ w hw).2] at hx
    cases hx
  given v hv := by
    obtain ⟨w, hw, hU⟩ := hv
    cases hw
    exact ⟨hU, rfl⟩
  le_last i hi := by
    obtain ⟨w, hw, _⟩ := hi
    cases hw
  bound i hi := by
    obtain ⟨w, hw, _⟩ := hi
    cases hw
  closed i hi := by
    obtain ⟨w, hw, _⟩ := hi
    cases hw

namespace Inference

open Query Problem

variable {s : Setting} {k : Fragment} {vars : List TypeVar} {m m' : Memory} {p p' : Problem}
  {types : List Ty}

/-- The solutions are regular types that mention no variable and are no primitives. -/
structure Closes (s : Setting) (k : Fragment) (types : List Ty) : Prop where
  regular : ∀ t ∈ types, t.Regular s k ∧ t.isInter = false
  vars : ∀ t ∈ types, t.vars = []
  prims : ∀ t ∈ types, t.isPrim = false

/-- Solutions that are closed put in no intersections and no primitive types. -/
theorem Closes.image (h : Closes s k types) (v : Var) :
    ((Subst.zip vars types).image v).isInter = false ∧
      ((Subst.zip vars types).image v).isPrim = false := by
  cases hlook : (Subst.zip vars types).lookup v with
  | none =>
    rw [Subst.image_of_none hlook]
    exact ⟨rfl, rfl⟩
  | some t =>
    have ht := Subst.mem_of_lookup_zip hlook
    have hprim : t.shape.isPrim = t.isPrim := by cases t <;> rfl
    rw [Subst.image_of_some hlook, Ty.isInter_shape, hprim]
    exact ⟨(h.regular t ht).2, h.prims t ht⟩

/-- Solutions that are closed put in regular types without variables. -/
theorem Closes.image_declared (h : Closes s k types) (hlen : vars.length = types.length)
    {w : TypeVar} (hw : w ∈ vars) :
    ((Subst.zip vars types).image (.declared w)).Regular s k ∧
      ((Subst.zip vars types).image (.declared w)).vars = [] := by
  obtain ⟨t, ht, himage⟩ := Setting.image_zip_cases hw (Nat.le_of_eq hlen)
  rw [himage, Ty.vars_shape]
  exact ⟨(h.regular t ht).1.shape, h.vars t ht⟩

/-- What holds under all realizations is derived with the solutions put in, in any scope. -/
theorem Closes.below (h : Closes s k types) (hlen : vars.length = types.length) {Γ : Scope}
    {a b : Ty} (hgood : Good s k Γ (· ∈ vars) (Subst.zip vars types).image a b)
    (ha : a.Known (· ∈ vars) fun _ => False) (hb : b.Known (· ∈ vars) fun _ => False) (Δ : Scope) :
    Below s Δ (a.rebuild (Subst.zip vars types).image) (b.rebuild (Subst.zip vars types).image) := by
  have hcovers : ∀ {t : Ty}, t.Known (· ∈ vars) (fun _ => False) →
      ∀ v ∈ t.vars, ∃ w, v = .declared w ∧ w ∈ vars := by
    intro t ht v hv
    rcases ht v hv with hw | ⟨_, _, hfalse⟩
    · exact hw
    · exact hfalse.elim
  exact hgood (.ofClosed Γ Δ (Subst.siteless_image _) h.image fun w hw => h.image_declared hlen hw)
    (hcovers ha) (hcovers hb)

/-- Unknowns agree with what is put in if that are their solutions. -/
theorem Problem.agrees_of_solutions {μ : Marks} (hp : p.Tidy s k vars μ)
    (hall : List.Forall₂ (fun u t => u.solution = some t) p.unknowns types)
    (hclosed : ∀ t ∈ types, t.vars = []) : p.Agrees (Subst.zip vars types).image := by
  intro u hu t ht
  have hlen : vars.length = types.length := by
    rw [← hp.domain, List.length_map, hall.length_eq]
  obtain ⟨i, hi, rfl⟩ := List.getElem_of_mem hu
  have hi' : i < types.length := hall.length_eq ▸ hi
  rw [show p.unknowns[i].solution = some types[i] from hall.get hi hi'] at ht
  injection ht with ht
  have hvar : vars[i]? = some p.unknowns[i].var := by
    rw [← hp.domain, List.getElem?_map, List.getElem?_eq_getElem hi]
    rfl
  obtain ⟨hlt, hvar⟩ := List.getElem?_eq_some_iff.1 hvar
  have hmem : (p.unknowns[i].var, t) ∈ vars.zip types := by
    rw [List.mem_iff_getElem]
    exact ⟨i, by rw [List.length_zip]; omega, by rw [List.getElem_zip, hvar, ht]⟩
  rw [Subst.image_of_some (Subst.lookup_zip_of_mem hlen hp.distinct hmem)]
  exact ⟨hclosed t (ht ▸ List.getElem_mem hi'), rfl⟩

/-- **The solutions found on the way are those at the end.** -/
theorem Problem.Solved.agrees (h : p.Solved s k vars m types) (hclosed : ∀ t ∈ types, t.vars = []) :
    p.Agrees (Subst.zip vars types).image := by
  obtain ⟨_, _, p', _, htidy, hlead, _, hall⟩ := h
  exact .of_kept hlead.kept (agrees_of_solutions htidy hall hclosed)

/-- **Searches are sound.** If a search ends with solutions that mention no variable and are no
primitives, then every constraint that was pending holds with the solutions put in. In the plain
fragment no solution mentions a variable, in the full one none is a primitive. -/
theorem search_below (hs : s.Regular k) {n : Nat} {effort : Effort} {r : Outcome × Effort}
    (hp : p.Stands s k vars m) (h : (searchWithin s n p effort).Answers m r m')
    (htypes : r.1.solutions = some types) (hvars : k = .full → ∀ t ∈ types, t.vars = [])
    (hprims : k = .plain → ∀ t ∈ types, t.isPrim = false) :
    vars.length = types.length ∧ Closes s k types ∧
      ∀ c ∈ p.pending, c.lhs.Known (· ∈ vars) (fun _ => False) →
        c.rhs.Known (· ∈ vars) (fun _ => False) → ∀ Δ, c.Holds fun a b =>
          Below s Δ (a.rebuild (Subst.zip vars types).image)
            (b.rebuild (Subst.zip vars types).image) := by
  obtain ⟨m₁, μ, p', hg, htidy, hlead, hholds, hall⟩ :=
    (searchWithin_solved hs n p effort m r m' hp h).2 types htypes
  have hlen : vars.length = types.length := by
    rw [← htidy.domain, List.length_map, hall.length_eq]
  have hsolution : ∀ i (hi : i < p'.unknowns.length) (hi' : i < types.length),
      p'.unknowns[i].solution = some types[i] := fun i hi hi' => hall.get hi hi'
  have htidySolution : ∀ t ∈ types, t.Regular s k ∧ t.isInter = false ∧ t.Over μ.clean := by
    intro t ht
    obtain ⟨i, hi, rfl⟩ := List.getElem_of_mem ht
    have hi' : i < p'.unknowns.length := hall.length_eq ▸ hi
    exact (htidy.unknowns _ (List.getElem_mem hi')).solution _ (hsolution i hi' hi)
  have hclosed : ∀ t ∈ types, t.vars = [] := by
    intro t ht
    cases k with
    | full => exact hvars rfl t ht
    | plain =>
      refine List.eq_nil_iff_forall_not_mem.2 fun v hv => ?_
      obtain ⟨i, _, hi⟩ := (htidySolution t ht).2.2 v hv
      exact hg.plain rfl i (hg.clean i hi)
  have hproper : ∀ t ∈ types, t.isPrim = false := by
    intro t ht
    cases k with
    | full => exact (htidySolution t ht).1.not_prim
    | plain => exact hprims rfl t ht
  have hcloses : Closes s k types :=
    ⟨fun t ht => ⟨(htidySolution t ht).1, (htidySolution t ht).2.1⟩, hclosed, hproper⟩
  have hagree := Problem.agrees_of_solutions htidy hall hclosed
  refine ⟨hlen, hcloses, fun c hc hlhs hrhs Δ => ?_⟩
  have hgood := (hlead.holds _ hagree (hholds _)).1 c hc
  obtain ⟨⟨lhs, rel, rhs⟩, origin⟩ := c
  cases rel with
  | below => exact hcloses.below hlen hgood hlhs hrhs Δ
  | equal => exact ⟨hcloses.below hlen hgood.1 hlhs hrhs Δ, hcloses.below hlen hgood.2 hrhs hlhs Δ⟩
  | above => exact hcloses.below hlen hgood hrhs hlhs Δ

end Inference
end Generics
