/-
# Constraints without unknowns

A search without unknowns only reduces constraints. What is pending holds exactly if the search ends
without a contradiction, as long as it does not run out of steps: a reduction asks for nothing
that does not hold (`advance_fulfilled`), some branch of a fork is fulfilled, and the search does end
(`searchWithin_ends`). So the search succeeds on a constraint between closed types exactly if the
constraint holds (`search_ground`), which is what comparing the types decides (`Claim.ask_decides`).
-/

import Generics.Proofs.Solving

namespace Generics
namespace Inference

open Query Setting

variable {s : Setting} {k : Fragment} {m m' : Memory} {p p' : Problem}

namespace Problem

/-- All constraints that are pending hold. -/
def Fulfilled (s : Setting) (m : Memory) (p : Problem) : Prop :=
  ∀ c ∈ p.pending, c.Holds fun a b => Below s m.scope a.shape b.shape

/-- The problem has no unknowns, and its constraints are tidy. -/
structure Ground (s : Setting) (k : Fragment) (m : Memory) (p : Problem) : Prop where
  stands : p.Stands s k [] m
  unknowns : p.unknowns = []

/-- What holds between types without unknowns holds however much is captured later. -/
theorem Ground.below_iff (hs : s.Regular k) (h : p.Ground s k m) (hgrows : m.Grows s k m')
    {c : Constraint} (hc : c ∈ p.pending) :
    (c.Holds fun a b => Below s m'.scope a.shape b.shape) ↔
      c.Holds fun a b => Below s m.scope a.shape b.shape := by
  obtain ⟨μ, hg, hp⟩ := h.stands.marked
  have ht := hp.pending c hc
  have hU : ∀ v, ¬ v ∈ ([] : List TypeVar) := fun v => List.not_mem_nil
  have hl := hg.over_clean hU ht.leftKnown
  have hr := hg.over_clean hU ht.rightKnown
  have h₁ := Below.le_iff hs hg.sound hgrows.le ht.left ht.right hl hr
  have h₂ := Below.le_iff hs hg.sound hgrows.le ht.right ht.left hr hl
  obtain ⟨⟨a, rel, b⟩, origin⟩ := c
  cases rel with
  | below => exact h₁
  | equal => exact and_congr h₁ h₂
  | above => exact h₂

/-- What is fulfilled stays fulfilled when the memory grows. -/
theorem Ground.fulfilled (hs : s.Regular k) (h : p.Ground s k m) (hgrows : m.Grows s k m')
    (hp : p.Fulfilled s m) : p.Fulfilled s m' := fun c hc => (h.below_iff hs hgrows hc).2 (hp c hc)

/-- A problem without unknowns stays so when the memory grows. -/
theorem Ground.grows (h : p.Ground s k m) (hgrows : m.Grows s k m') : p.Ground s k m' :=
  ⟨h.stands.grows hgrows, h.unknowns⟩

/-- Without unknowns nothing is replaced and nothing is filed. -/
theorem reduce_ground (h : p.unknowns = []) (c : Constraint) : p.reduce s c = c.reduceRigid s := by
  have hunknown : ∀ t, p.unknown? t = none := by
    intro t
    rw [unknown?, Option.filter_eq_none_iff]
    intro key _
    simp [isUnknown, h]
  have hreplace : c.replace (p.solutionsWhere Unknown.closed) = pure c := by
    have hempty : (p.solutionsWhere Unknown.closed).entries.isEmpty = true := by
      rw [solutionsWhere, h]
      rfl
    simp only [Constraint.replace, replace?, hempty, if_true, pure_bind]
  simp only [reduce, hreplace, pure_bind, hunknown]

/-- Without unknowns and constraints there is nothing left to do. -/
theorem advance_done (h : p.unknowns = []) (hpend : p.pending = []) :
    p.advance s = pure (.done { solutions := some [], ambiguous := p.picked }) := by
  obtain ⟨us, cs, picked⟩ := p
  cases h
  cases hpend
  rfl

end Problem

open Problem

/-- What a step of a search leads to is fulfilled, for a fork in some branch. -/
def Progress.Fulfilled (s : Setting) (m : Memory) : Progress → Prop
  | .further p => p.Fulfilled s m
  | .fork ps => ∃ p ∈ ps, p.Fulfilled s m
  | .done o => o.solutions.isSome = true

/-- The problems that a step of a search leads to. -/
def Progress.problems : Progress → List Problem
  | .further p => [p]
  | .fork ps => ps
  | .done _ => []

/-- What a reduction leads to, with the other constraints still pending. -/
def Problem.progress (p : Problem) : Reduction → Progress
  | .filed unknowns => .further { p with unknowns }
  | .allOf cs => .further (p.push cs)
  | .oneOf cs => .fork (cs.map fun c => { p.push [c] with picked := false })
  | .refuted f => .done { failure := some f }

/-- Advancing reduces the oldest constraint. -/
theorem advance_eq {c : Constraint} {rest : List Constraint} (hpend : p.pending = c :: rest) :
    p.advance s = ({ p with pending := rest } : Problem).reduce s c >>= fun r =>
      pure (({ p with pending := rest } : Problem).progress r) := by
  rw [advance, hpend]
  refine congrArg (_ >>= ·) (funext fun r => ?_)
  cases r <;> rfl

/-- Advancing a problem without unknowns always answers. -/
theorem advance_total (hs : s.Regular k) (hacyc : s.Acyclic) (hp : p.Ground s k m) :
    ∃ r m', (p.advance s).Answers m r m' := by
  obtain ⟨μ, hg, htidy⟩ := hp.stands.marked
  cases hpend : p.pending with
  | nil =>
    rw [advance_done hp.unknowns hpend]
    exact ⟨_, m, rfl⟩
  | cons c rest =>
    have ht := htidy.pending c (hpend ▸ List.mem_cons_self)
    obtain ⟨r, m₁, hr⟩ := reduceRigid_total hs hacyc c hp.stands.faithful ht.left ht.right
    rw [advance_eq hpend, reduce_ground (p := { p with pending := rest }) hp.unknowns]
    exact ⟨_, m₁, answers_bind.2 ⟨r, m₁, hr, rfl⟩⟩

/-- **Steps keep problems without unknowns as they are.** -/
theorem advance_ground (hs : s.Regular k) (hp : p.Ground s k m) {r : Progress}
    (h : (p.advance s).Answers m r m') :
    m.Grows s k m' ∧ ∀ p' ∈ r.problems, p'.Ground s k m' := by
  obtain ⟨μ, hg, htidy⟩ := hp.stands.marked
  obtain ⟨hgrows, ν, _, hg', hfollows⟩ :=
    advance_follows hs hp.stands.faithful hp.stands.tame hg htidy h
  refine ⟨hgrows, fun p' hp' => ?_⟩
  have hnext : p'.Tidy s k [] ν := by
    cases r with
    | further p₁ =>
      obtain rfl := List.mem_singleton.1 hp'
      exact hfollows.1
    | fork ps => exact (hfollows p' hp').1
    | done o => cases hp'
  exact ⟨⟨hgrows.faithful, hgrows.tame hp.stands.tame, ν, hg', hnext⟩,
    List.map_eq_nil_iff.1 hnext.domain⟩

/-- **A step asks for nothing that does not hold.** -/
theorem advance_fulfilled (hs : s.Regular k) (hacyc : s.Acyclic) (hp : p.Ground s k m)
    (hful : p.Fulfilled s m) {r : Progress} (h : (p.advance s).Answers m r m') :
    r.Fulfilled s m' := by
  obtain ⟨μ, hg, htidy⟩ := hp.stands.marked
  cases hpend : p.pending with
  | nil =>
    rw [advance_done hp.unknowns hpend] at h
    obtain ⟨rfl, rfl⟩ := answers_pure.1 h
    rfl
  | cons c rest =>
    have hgrows := (advance_ground hs hp h).1
    have hc : c ∈ p.pending := hpend ▸ List.mem_cons_self
    have ht := htidy.pending c hc
    rw [advance_eq hpend, reduce_ground (p := { p with pending := rest }) hp.unknowns] at h
    obtain ⟨red, m₁, hred, h⟩ := answers_bind.1 h
    obtain ⟨rfl, rfl⟩ := answers_pure.1 h
    have hfaces : FacesInter c.toClaim := by
      have hnone : ∀ t : Ty, t.Known (· ∈ ([] : List TypeVar)) μ.used →
          ∀ v, t ≠ .var (.declared v) := fun t ht v hv =>
        absurd (Ty.Known.unknown (hv ▸ ht)) List.not_mem_nil
      exact ⟨fun v hv => absurd hv (hnone _ ht.leftKnown v),
        fun v hv => absurd hv (hnone _ ht.rightKnown v)⟩
    obtain ⟨v, hres, hasks⟩ :=
      reduceRigid_answers hs hp.stands.faithful ht.left ht.right hfaces hred
    have hv := hres.holds hs hacyc ht.left ht.right (hful c hc)
    have hrest : ∀ d ∈ rest, d.Holds fun a b => Below s m'.scope a.shape b.shape := fun d hd =>
      hp.fulfilled hs hgrows hful d (hpend ▸ List.mem_cons_of_mem _ hd)
    cases red with
    | filed us => exact hasks.elim
    | refuted f =>
      cases v with
      | never => exact hv.elim
      | all cs => exact hasks.elim
      | one cs => exact hasks.elim
    | allOf cs =>
      cases v with
      | never => exact hasks.elim
      | one claims => exact hasks.elim
      | all claims =>
        intro d hd
        rcases List.mem_append.1 hd with hd | hd
        · exact hrest d hd
        · exact hv d.toClaim (hasks ▸ List.mem_map_of_mem hd)
    | oneOf cs =>
      cases v with
      | never => exact hasks.elim
      | all claims => exact hasks.elim
      | one claims =>
        obtain ⟨claim, hclaim, hholds⟩ := hv
        rw [← (hasks : cs.map Constraint.toClaim = claims)] at hclaim
        obtain ⟨d, hd, rfl⟩ := List.mem_map.1 hclaim
        refine ⟨_, List.mem_map.2 ⟨d, hd, rfl⟩, fun d' hd' => ?_⟩
        rcases List.mem_append.1 hd' with hd' | hd'
        · exact hrest d' hd'
        · obtain rfl := List.mem_singleton.1 hd'
          exact hholds

/-! ### Whole searches -/

/-- The search can be advanced often enough to run out of steps first. -/
def Enough (s : Setting) (n : Nat) (effort : Effort) : Prop :=
  1 ≤ n ∧ s.options.maxSteps + 2 ≤ n + effort.steps

/-- What is enough for a problem is enough for its branches. -/
theorem Enough.fork {n : Nat} {effort : Effort} (h : Enough s n effort) {branches : Nat} :
    Enough s n { effort with branches } := h

/-- The search ends, and unless it runs away it ends with solutions if the condition holds. -/
def Ends (s : Setting) (k : Fragment) (m : Memory) (effort : Effort) (cond : Prop)
    (q : Query (Outcome × Effort)) : Prop :=
  ∃ r m', q.Answers m r m' ∧ m.Grows s k m' ∧ effort.steps ≤ r.2.steps ∧
    (cond → r.1.isRunaway = false → r.1.solutions.isSome = true)

/-- Some branch is fulfilled, or was solved before: then the fork is solved. -/
theorem searchBranches_ends (hs : s.Regular k) {n : Nat}
    (hsearch : ∀ p effort m, p.Ground s k m → Enough s n effort →
      Ends s k m effort (p.Fulfilled s m) (searchWithin s n p effort))
    (exhaustive : Bool) {ps : List Problem} (o : Outcome) (failures : List Failure)
    {effort : Effort} (hm : m.Faithful s) (hps : ∀ p ∈ ps, p.Ground s k m)
    (henough : Enough s n effort) :
    Ends s k m effort (o.solutions.isSome = true ∨ ∃ p ∈ ps, p.Fulfilled s m)
      (searchBranches exhaustive (searchWithin s n) ps o failures effort) := by
  induction ps generalizing o failures effort m with
  | nil =>
    refine ⟨_, m, rfl, .refl hm, Nat.le_refl _, fun hcond _ => ?_⟩
    rw [Outcome.close_solutions]
    rcases hcond with hcond | ⟨p, hp, _⟩
    · exact hcond
    · cases hp
  | cons p ps ih =>
    obtain ⟨⟨branch, effort₁⟩, m₁, hbranch, hgrows, hle, hsolved⟩ :=
      hsearch p effort m (hps p List.mem_cons_self) henough
    have hmerge : (o.solutions.isSome = true ∨ branch.solutions.isSome = true) →
        (o.merge branch).solutions.isSome = true := by
      intro h
      unfold Outcome.merge
      dsimp only
      split
      · assumption
      · exact h.resolve_left (by assumption)
    have hcond : branch.isRunaway = false →
        (o.solutions.isSome = true ∨ ∃ p' ∈ p :: ps, p'.Fulfilled s m) →
          (o.merge branch).solutions.isSome = true ∨ ∃ p' ∈ ps, p'.Fulfilled s m₁ := by
      rintro hrun (ho | ⟨p', hp', hful⟩)
      · exact .inl (hmerge (.inl ho))
      · rcases List.mem_cons.1 hp' with rfl | hp'
        · exact .inl (hmerge (.inr (hsolved hful hrun)))
        · exact .inr ⟨p', hp', (hps p' (List.mem_cons_of_mem _ hp')).fulfilled hs hgrows hful⟩
    have henough₁ : Enough s n effort₁ := ⟨henough.1, Nat.le_trans henough.2 (by simpa using hle)⟩
    by_cases hrun : branch.isRunaway = true
    · refine ⟨({ o with failure := branch.failure }, effort₁), m₁,
        answers_bind.2 ⟨_, _, hbranch, ?_⟩, hgrows, hle, fun _ hnot => ?_⟩
      · simp only [hrun, if_true]
        rfl
      · cases hrun.symm.trans hnot
    rw [Bool.not_eq_true] at hrun
    by_cases hset : ((o.merge branch).isSettled && !exhaustive) = true
    · refine ⟨((o.merge branch).close (if branch.solutions.isSome then failures
          else failures ++ branch.failure.toList), effort₁), m₁,
        answers_bind.2 ⟨_, _, hbranch, ?_⟩, hgrows, hle, fun _ _ => ?_⟩
      · simp only [hrun, hset, if_true, Bool.false_eq_true, if_false]
        rfl
      · rw [Outcome.close_solutions]
        rw [Bool.and_eq_true, Outcome.isSettled, Bool.and_eq_true] at hset
        exact hset.1.1
    · obtain ⟨r, m₂, hr, hgrows₂, hle₂, hends⟩ := ih (o.merge branch) _ hgrows.faithful
        (fun p' hp' => (hps p' (List.mem_cons_of_mem _ hp')).grows hgrows) henough₁
      refine ⟨r, m₂, answers_bind.2 ⟨_, _, hbranch, ?_⟩, hgrows.trans hgrows₂,
        Nat.le_trans hle hle₂, fun h hnot => hends (hcond hrun h) hnot⟩
      simp only [hrun, hset, Bool.false_eq_true, if_false]
      exact hr

/-- **A search without unknowns ends**, and if what is pending holds, it ends with solutions or runs
out of steps. -/
theorem searchWithin_ends (hs : s.Regular k) (hacyc : s.Acyclic) {n : Nat} {effort : Effort}
    (hp : p.Ground s k m) (henough : Enough s n effort) :
    Ends s k m effort (p.Fulfilled s m) (searchWithin s n p effort) := by
  induction n generalizing p m effort with
  | zero => exact absurd henough.1 (by omega)
  | succ n ih =>
    have hspend : effort.steps ≤ (p.spend effort).steps := by
      unfold spend
      split
      · exact Nat.le_refl _
      · exact Nat.le_succ _
    unfold Ends
    rw [searchWithin_succ]
    by_cases hmax : s.options.maxSteps < (p.spend effort).steps
    · rw [if_pos hmax]
      refine ⟨_, m, rfl, .refl hp.stands.faithful, hspend, fun _ hnot => ?_⟩
      cases hnot
    · rw [if_neg hmax]
      obtain ⟨r, m₁, hr⟩ := advance_total hs hacyc hp
      obtain ⟨hgrows, hnext⟩ := advance_ground hs hp hr
      have hful := fun h => advance_fulfilled hs hacyc hp h hr
      have hspent : r.problems ≠ [] → Enough s n (p.spend effort) := by
        intro hne
        have hpend : p.pending.isEmpty = false := by
          rw [List.isEmpty_eq_false_iff]
          intro hnil
          rw [advance_done hp.unknowns hnil] at hr
          obtain ⟨rfl, _⟩ := answers_pure.1 hr
          exact hne rfl
        have hsteps : (p.spend effort).steps = effort.steps + 1 := by
          rw [spend, hpend]
          rfl
        have := henough.2
        constructor <;> omega
      cases r with
      | done o =>
        exact ⟨_, m₁, answers_bind.2 ⟨_, _, hr, rfl⟩, hgrows, hspend, fun h _ => hful h⟩
      | further p' =>
        obtain ⟨r, m₂, hr₂, hgrows₂, hle, hends⟩ :=
          ih (hnext p' List.mem_cons_self) (hspent (List.cons_ne_nil _ _))
        exact ⟨r, m₂, answers_bind.2 ⟨_, _, hr, hr₂⟩, hgrows.trans hgrows₂,
          Nat.le_trans hspend hle, fun h hnot => hends (hful h) hnot⟩
      | fork ps =>
        cases ps with
        | nil =>
          refine ⟨_, m₁, answers_bind.2 ⟨_, _, hr, rfl⟩, hgrows, hspend, fun h _ => ?_⟩
          obtain ⟨p', hp', _⟩ := hful h
          cases hp'
        | cons p₁ ps =>
          have henough₁ := hspent (List.cons_ne_nil _ _)
          obtain ⟨r, m₂, hr₂, hgrows₂, hle, hends⟩ :=
            searchBranches_ends hs (fun p effort m => ih) s.options.exhaustive {} []
              hgrows.faithful hnext henough₁.fork
          exact ⟨r, m₂, answers_bind.2 ⟨_, _, hr, hr₂⟩, hgrows.trans hgrows₂,
            Nat.le_trans hspend hle, fun h hnot => hends (.inr (hful h)) hnot⟩

end Inference

/-- The type is of the whole fragment and mentions no variable. -/
structure Ty.Closed (s : Setting) (k : Fragment) (t : Ty) : Prop where
  whole : t.Whole s k
  vars : t.vars = []

namespace Ty.Closed

variable {s : Setting} {k : Fragment} {a b : Ty}

/-- A closed type is over no captured variables. -/
theorem isOver (h : a.Closed s k) {C : Nat → Prop} : a.Over C := fun v hv => by
  rw [h.vars] at hv
  cases hv

/-- Every type faces a closed one. -/
theorem faces (h : b.Closed s k) : a.Faces b := fun _ v hv => by
  have hmem := Ty.mem_vars_of_mem_conjuncts hv
  rw [h.vars] at hmem
  cases hmem

/-- Closed types can be compared in any scope. -/
theorem comparable (ha : a.Closed s k) (hb : b.Closed s k) (Γ : Scope) :
    s.Comparable k Γ (fun _ => False) a b where
  sound := Γ.sound_empty s k
  left := ha.whole
  right := hb.whole
  leftOver := ha.isOver
  rightOver := hb.isOver

/-- Between closed types it does not matter what was captured. -/
theorem below_iff (hs : s.Regular k) (ha : a.Closed s k) (hb : b.Closed s k) (Γ Δ : Scope) :
    Below s Γ a.shape b.shape ↔ Below s Δ a.shape b.shape := by
  have hagree : ∀ {Γ Δ : Scope}, Below s Γ a.shape b.shape → Below s Δ a.shape b.shape := by
    intro Γ Δ h
    have := h.agree (C := fun _ => False) (Δ := Δ) hs (Γ.sound_empty s k) (fun _ hi => hi.elim)
      (fun _ hi => hi.elim) ha.whole.shape hb.whole.shape ha.isOver.shape hb.isOver.shape
    simpa only [Ty.shape_shape] using this
  exact ⟨hagree, hagree⟩

end Ty.Closed

namespace Inference

open Query Setting

variable {s : Setting} {k : Fragment} {m m' : Memory}

/-- **Comparing decides whether a claim between closed types holds.** -/
theorem Claim.ask_decides (hs : s.Regular k) {c : Claim} (hl : c.lhs.Closed s k)
    (hr : c.rhs.Closed s k) (Γ : Scope) :
    Decides (Memory.Within s k Γ) (c.ask s) (c.Holds fun a b => Below s Γ a.shape b.shape) := by
  obtain ⟨a, rel, b⟩ := c
  cases rel with
  | below => exact below_decides hs Γ _ a b (hl.comparable hr Γ)
  | equal => exact equivalent_decides hs (hl.comparable hr Γ)
  | above => exact below_decides hs Γ _ b a (hr.comparable hl Γ)

/-- What a claim on closed types says does not depend on the scope. -/
theorem Claim.holds_iff (hs : s.Regular k) {c : Claim} (hl : c.lhs.Closed s k)
    (hr : c.rhs.Closed s k) (Γ Δ : Scope) :
    (c.Holds fun a b => Below s Γ a.shape b.shape) ↔ c.Holds fun a b => Below s Δ a.shape b.shape := by
  obtain ⟨a, rel, b⟩ := c
  cases rel with
  | below => exact hl.below_iff hs hr Γ Δ
  | equal => exact and_congr (hl.below_iff hs hr Γ Δ) (hr.below_iff hs hl Γ Δ)
  | above => exact hr.below_iff hs hl Γ Δ

/-- A claim between closed types starts a search without unknowns. -/
theorem ground_start (hs : s.Regular k) {c : Claim} (hl : c.lhs.Closed s k) (hr : c.rhs.Closed s k)
    (hm : m.Faithful s) (htame : m.Tame s k) :
    ((Problem.start s []).push [{ c with }]).Ground s k m := by
  refine ⟨stands_start hs hs.object List.nodup_nil hm htame fun d hd => ?_, rfl⟩
  rw [List.mem_singleton.1 hd]
  exact
    { left := hl.whole
      right := hr.whole
      leftKnown := hl.isOver.known fun _ => id
      rightKnown := hr.isOver.known fun _ => id
      clears := .inl hl.isOver
      faces := fun _ => ⟨hr.faces, hl.faces⟩ }

/-- **The search agrees with the order.** Without unknowns a search for a claim between closed types
ends. If it succeeds the claim holds, and if the claim holds it succeeds unless it runs out of
steps. -/
theorem search_ground (hs : s.Regular k) (hacyc : s.Acyclic) {c : Claim} (hl : c.lhs.Closed s k)
    (hr : c.rhs.Closed s k) (hm : m.Faithful s) (htame : m.Tame s k) :
    ∃ o e m', (search s ((Problem.start s []).push [{ c with }])).Answers m (o, e) m' ∧
      (o.solutions.isSome = true → c.Holds fun a b => Below s m.scope a.shape b.shape) ∧
      ((c.Holds fun a b => Below s m.scope a.shape b.shape) → o.isRunaway = false →
        o.solutions = some []) := by
  have hground := ground_start hs hl hr hm htame
  have henough : Enough s (advancesAtMost s ((Problem.start s []).push [{ c with }])) {} := by
    simp only [Enough, advancesAtMost]
    omega
  obtain ⟨⟨o, e⟩, m', hanswers, _, _, hends⟩ := searchWithin_ends hs hacyc hground henough
  have hnil : ∀ types, o.solutions = some types → types = [] := by
    intro types htypes
    obtain ⟨_, μ, p', _, htidy, _, _, hall⟩ :=
      (searchWithin_solved hs _ _ _ _ _ _ hground.stands hanswers).2 types htypes
    rw [List.map_eq_nil_iff.1 htidy.domain] at hall
    exact List.forall₂_nil_left_iff.1 hall
  refine ⟨o, e, m', hanswers, fun hfound => ?_, fun hholds hrun => ?_⟩
  · obtain ⟨types, htypes⟩ := Option.isSome_iff_exists.1 hfound
    obtain rfl := hnil types htypes
    obtain ⟨_, _, hpending⟩ :=
      search_below hs hground.stands hanswers htypes (fun _ => by simp) (fun _ => by simp)
    exact hpending { c with } (List.mem_singleton.2 rfl) (hl.isOver.known fun _ => id)
      (hr.isOver.known fun _ => id) m.scope
  · have hfulfilled : ((Problem.start s []).push [{ c with }]).Fulfilled s m := fun d hd => by
      rw [List.mem_singleton.1 hd]
      exact hholds
    obtain ⟨types, htypes⟩ := Option.isSome_iff_exists.1 (hends hfulfilled hrun)
    rw [htypes, hnil types htypes]

end Inference
end Generics
