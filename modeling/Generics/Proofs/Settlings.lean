/-
# Settling loses no constraint

When nothing is pending, unknowns are settled. Here the steps of settling are shown to lead from
tidy problems to tidy problems:

- an equality that is made the solution holds of the solution;
- constraints that are handed on hold of the unknown if they hold of its solution;
- a solution that is picked among bounds was compared with all bounds that are then forgotten, and
  these mention clean variables only, so that what the comparison says holds under all realizations.
-/

import Generics.Proofs.Problems

namespace Generics

namespace Query

variable {α : Type} {I : Memory → Prop} {m m' : Memory}

/-- Asking for the first of some things decides which is the first one to have the property. -/
theorem Decides.first? {ask : α → Query Bool} {P : α → Prop} {as : List α} {r : Option α}
    (h : ∀ a ∈ as, Decides I (ask a) (P a)) (hm : I m) (hr : (Query.first? ask as).Answers m r m') :
    I m' ∧ (∀ a, r = some a → a ∈ as ∧ P a) ∧ (r = none → ∀ a ∈ as, ¬ P a) := by
  induction as generalizing m with
  | nil =>
    obtain ⟨rfl, rfl⟩ := answers_pure.1 hr
    exact ⟨hm, by simp, by simp⟩
  | cons a as ih =>
    obtain ⟨b, m₁, hb, hr⟩ := answers_bind.1 hr
    obtain ⟨hm₁, hiff⟩ := h a List.mem_cons_self m b m₁ hm hb
    cases b with
    | true =>
      obtain ⟨rfl, rfl⟩ := answers_pure.1 hr
      refine ⟨hm₁, fun a' ha' => ?_, by simp⟩
      injection ha' with ha'
      exact ha' ▸ ⟨List.mem_cons_self, hiff.1 rfl⟩
    | false =>
      obtain ⟨hm', hsome, hnone⟩ := ih (fun a' ha' => h a' (List.mem_cons_of_mem _ ha')) hm₁ hr
      refine ⟨hm', fun a' ha' => ?_, fun hr' a' ha' => ?_⟩
      · obtain ⟨hmem, hP⟩ := hsome a' ha'
        exact ⟨List.mem_cons_of_mem _ hmem, hP⟩
      · rcases List.mem_cons.1 ha' with rfl | ha'
        · exact fun hP => Bool.false_ne_true (hiff.2 hP)
        · exact hnone hr' a' ha'

end Query

/-! ### What a solution is good for -/

namespace Good

variable {s : Setting} {k : Fragment} {Γ : Scope} {U : TypeVar → Prop} {σ : Var → Ty} {v : TypeVar}
  {t b : Ty}

/-- Putting in a closed solution is putting in its shape. -/
theorem put_solution (ht : t.vars = []) (hσ : t.shape = σ (.declared v))
    {R : Realization s k Γ U σ} (hR : R.Covers (.var (.declared v))) :
    R.Covers t ∧ t.rebuild R.put = (Ty.var (.declared v)).rebuild R.put := by
  refine ⟨fun w hw => by simp [ht] at hw, ?_⟩
  rw [Ty.rebuild_eq_shape (by simp [ht]), Ty.rebuild, (R.given v (hR _ List.mem_cons_self)).2, hσ]

/-- What the solution is below, the unknown is below. -/
theorem solution_left (ht : t.vars = []) (hσ : t.shape = σ (.declared v))
    (h : Good s k Γ U σ t b) : Good s k Γ U σ (.var (.declared v)) b := by
  intro R hv hb
  obtain ⟨hcov, hput⟩ := put_solution ht hσ hv
  rw [← hput]
  exact h R hcov hb

/-- What the solution is above, the unknown is above. -/
theorem solution_right (ht : t.vars = []) (hσ : t.shape = σ (.declared v))
    (h : Good s k Γ U σ b t) : Good s k Γ U σ b (.var (.declared v)) := by
  intro R hb hv
  obtain ⟨hcov, hput⟩ := put_solution ht hσ hv
  rw [← hput]
  exact h R hb hcov

end Good

namespace Inference

open Query

variable {s : Setting} {k : Fragment} {U : TypeVar → Prop} {μ : Marks} {m m' : Memory}
  {τ : Subst} {σ : Var → Ty} {vars : List TypeVar} {p p' : Problem}

/-! ### Equalities that become solutions -/

namespace Unknown

/-- An unknown that is promoted has taken a closed side of an equation for its solution. -/
theorem promote_cases (mentions : Ty → Bool) (u : Unknown) :
    u.promote mentions = u ∨ (u.closed = false ∧ u.solution = none ∧ ∃ c pre post,
      u.equal = pre ++ c :: post ∧ mentions c.rhs = false ∧
        u.promote mentions = { u with solution := some c.rhs, equal := pre ++ post }) := by
  unfold promote
  split
  · exact .inl rfl
  · next hopen =>
    rw [Bool.or_eq_true, not_or, Bool.not_eq_true, Option.not_isSome_iff_eq_none] at hopen
    split
    · exact .inl rfl
    · next c hfind =>
      obtain ⟨hc, pre, post, hequal, hpre⟩ := List.find?_eq_some_iff_append.1 hfind
      refine .inr ⟨hopen.1, hopen.2, c, pre, post, hequal, by simpa using hc, ?_⟩
      rw [hequal, List.eraseP_append_right _ (by simpa using hpre),
        List.eraseP_cons_of_pos (p := fun c : Constraint => !mentions c.rhs) hc]

/-- Promoting extends unknowns. -/
theorem promote_extends (mentions : Ty → Bool) (u : Unknown) : u.Extends (u.promote mentions) := by
  rcases u.promote_cases mentions with h | ⟨_, hsol, c, pre, post, _, _, h⟩
  · rw [h]
    exact .refl u
  · rw [h]
    exact ⟨rfl, fun t ht => by rw [hsol] at ht; cases ht⟩

end Unknown

namespace Problem

/-- A type over clean variables and unknowns that mentions no unknown is over clean variables. -/
theorem over_of_mentions (hp : p.Tidy s k vars μ) {t : Ty} (ht : t.Known (· ∈ vars) μ.clean)
    (h : p.mentions t = false) : t.Over μ.clean := by
  intro v hv
  rcases ht v hv with ⟨w, rfl, hw⟩ | hcap
  · rw [mentions, List.any_eq_false] at h
    exact absurd (hp.isUnknown hw) (h _ hv)
  · exact hcap

/-- Promoting keeps problems tidy. -/
theorem promote_tidy (hp : p.Tidy s k vars μ) : p.promote.Tidy s k vars μ := by
  refine ⟨?_, hp.distinct, hp.pending, fun u' hu' => ?_⟩
  · rw [← hp.domain, promote, List.map_map]
    exact List.map_congr_left fun u _ => (u.promote_extends p.mentions).var
  · obtain ⟨u, hu, rfl⟩ := List.mem_map.1 hu'
    have htidy := hp.unknowns u hu
    rcases u.promote_cases p.mentions with h | ⟨hopen, hsol, c, pre, post, hequal, hc, h⟩
    · rw [h]
      exact htidy
    · rw [h]
      have hmem : c ∈ u.filed := by
        rw [Unknown.filed, hequal]
        simp
      have hsub : ∀ d ∈ pre ++ post, d ∈ u.equal := by
        intro d hd
        rw [hequal]
        rcases List.mem_append.1 hd with hd | hd
        · exact List.mem_append_left _ hd
        · exact List.mem_append_right _ (List.mem_cons_of_mem _ hd)
      have hfits := htidy.fits c hmem
      refine ⟨htidy.upper, fun d hd => htidy.equal d (hsub d hd), htidy.lower, fun d hd => ?_,
        fun t ht => ?_, fun hclosed => ?_⟩
      · refine htidy.fits d ?_
        simp only [Unknown.filed, List.mem_append] at hd ⊢
        rcases hd with (hd | hd) | hd
        · exact .inl (.inl hd)
        · exact .inl (.inr (hsub d (List.mem_append.2 hd)))
        · exact .inr hd
      · injection ht with ht
        subst ht
        exact ⟨hfits.regular, hfits.flat, over_of_mentions hp hfits.known hc⟩
      · have hclosed' : u.closed = true := hclosed
        rw [hopen] at hclosed'
        cases hclosed'

/-- **Promoting loses no constraint.** -/
theorem promote_leads (hs : s.Regular k) (hp : p.Tidy s k vars μ) :
    Leads s k vars m m p p.promote where
  kept := by
    rw [promote, List.forall₂_map_right_iff]
    exact List.forall₂_same.2 fun u _ => u.promote_extends p.mentions
  holds σ hagree hholds := by
    refine ⟨hholds.1, fun u hu d hd => ?_⟩
    have hmem : u.promote p.mentions ∈ p.promote.unknowns := List.mem_map_of_mem hu
    rcases u.promote_cases p.mentions with h | ⟨_, _, c, pre, post, hequal, _, h⟩
    · rw [h] at hmem
      exact hholds.2 u hmem d hd
    · rw [h] at hmem
      have hc : c ∈ u.filed := by
        rw [Unknown.filed, hequal]
        simp
      simp only [Unknown.filed, hequal, List.mem_append, List.mem_cons] at hd
      by_cases hdc : d = c
      · -- the equality that became the solution
        subst hdc
        obtain ⟨ht, hσ⟩ := hagree _ hmem d.rhs rfl
        have hself := Good.self (Γ := m.scope) (U := (· ∈ vars)) (σ := σ) hs
          ((hp.unknowns u hu).fits d hc).regular
        have hrel := (hp.unknowns u hu).equal d (by rw [hequal]; simp)
        unfold Claim.Holds
        rw [hrel, ((hp.unknowns u hu).fits d hc).lhs]
        exact ⟨Good.solution_left ht hσ hself, Good.solution_right ht hσ hself⟩
      · refine hholds.2 _ hmem d ?_
        simp only [Unknown.filed, List.mem_append]
        rcases hd with (hd | hd | hd | hd) | hd
        · exact .inl (.inl hd)
        · exact .inl (.inr (.inl hd))
        · exact absurd hd hdc
        · exact .inl (.inr (.inr hd))
        · exact .inr hd

end Problem

/-! ### Handing on -/

namespace Unknown

/-- What fits a given variable is tidy. -/
theorem Fits.tidy {v : TypeVar} {c : Constraint} (hv : U v) (hsub : ∀ i, μ.clean i → μ.used i)
    (h : Fits s k U μ v c) : s.Tidy k U μ c.lhs c.rhs := by
  have hknown : (Ty.var (.declared v)).Known U μ.clean := by
    intro w hw
    rw [Ty.vars, List.mem_singleton] at hw
    exact .inl ⟨v, hw, hv⟩
  rw [h.lhs]
  exact .of_regular (by rw [Ty.Regular]; trivial) h.regular (hknown.mono hsub) (h.known.mono hsub)
    (.inr (.inr ⟨hknown, h.known, .inr (.inl ⟨v, rfl⟩)⟩))

/-- Constraints on an unknown that is not replaced stay on it. -/
theorem Fits.becomes {v : TypeVar} {c c' : Constraint} (h : Fits s k U μ v c)
    (hτ : τ.Clean s k μ.clean) (hv : τ.lookup (.declared v) = none) (hbec : c.Becomes τ c') :
    Fits s k U μ v c' := by
  refine ⟨?_, hbec.rhs.regular_of hτ h.regular, (hbec.rhs.isInter hτ).trans h.flat,
    hbec.rhs.known hτ h.known fun _ => id⟩
  have hshape := hbec.lhs.shape
  rw [h.lhs, Ty.rebuild, Subst.image_of_none hv] at hshape
  cases hlhs : c'.lhs with
  | var w =>
    rw [hlhs] at hshape
    exact hshape
  | _ =>
    rw [hlhs] at hshape
    cases hshape

/-- What becomes of an unknown and of what is filed with it. -/
structure Hands (s : Setting) (k : Fragment) (U : TypeVar → Prop) (μ : Marks) (τ : Subst)
    (us us' : List Unknown) (cs : List Constraint) : Prop where
  kept : List.Forall₂ Extends us us'
  unknowns : ∀ u ∈ us', u.Tidy s k U μ
  pending : ∀ c ∈ cs, s.Tidy k U μ c.lhs c.rhs
  moved : ∀ u ∈ us, ∀ c ∈ u.filed, ∃ c', c.Becomes τ c' ∧ (c' ∈ cs ∨ ∃ u' ∈ us', c' ∈ u'.filed)

/-- Handing solutions to an unknown keeps what is known and what it says. -/
theorem hand_answers {u : Unknown} {r : Unknown × List Constraint} (hm : m.Faithful s)
    (hu : u.Tidy s k U μ) (hv : U u.var) (hτ : τ.Clean s k μ.clean)
    (hsub : ∀ i, μ.clean i → μ.used i)
    (hopen : u.solution = none → τ.lookup (.declared u.var) = none)
    (h : (u.hand τ).Answers m r m') :
    m.Stays s m' ∧ Hands s k U μ τ [u] [r.1] r.2 := by
  unfold hand at h
  split at h
  · next hclosed =>
    obtain ⟨rfl, rfl⟩ := answers_pure.1 h
    refine ⟨.refl hm, .cons (.refl u) .nil, by simpa using hu, by simp, fun u' hu' c hc => ?_⟩
    rw [List.mem_singleton.1 hu', (hu.closed hclosed).2] at hc
    cases hc
  · next hclosed =>
    obtain ⟨upper, m₁, hupper, h⟩ := answers_bind.1 h
    obtain ⟨hup, hst₁⟩ := Constraint.replaceAll_answers hm hupper
    obtain ⟨equal, m₂, hequal, h⟩ := answers_bind.1 h
    obtain ⟨heq, hst₂⟩ := Constraint.replaceAll_answers hst₁.faithful hequal
    obtain ⟨lower, m₃, hlower, h⟩ := answers_bind.1 h
    obtain ⟨hlow, hst₃⟩ := Constraint.replaceAll_answers hst₂.faithful hlower
    have hst := (hst₁.trans hst₂).trans hst₃
    have hall : List.Forall₂ (Constraint.Becomes τ) u.filed (upper ++ equal ++ lower) :=
      List.rel_append (List.rel_append hup heq) hlow
    split at h
    · next hsol =>
      obtain ⟨rfl, rfl⟩ := answers_pure.1 h
      refine ⟨hst, .cons ⟨rfl, fun _ => id⟩ .nil, fun u' hu' => ?_, fun c hc => ?_,
        fun u' hu' c hc => ?_⟩
      · rw [List.mem_singleton.1 hu']
        exact ⟨by simp, by simp, by simp, by simp [filed], hu.solution, fun _ => ⟨hsol, rfl⟩⟩
      · obtain ⟨c₀, hc₀, hbec⟩ := exists_of_forall₂_right hall hc
        exact hbec.tidy hτ hsub ((hu.fits c₀ hc₀).tidy hv hsub)
      · rw [List.mem_singleton.1 hu'] at hc
        obtain ⟨c', hc', hbec⟩ := exists_of_forall₂ hall hc
        exact ⟨c', hbec, .inl hc'⟩
    · next hsol =>
      obtain ⟨rfl, rfl⟩ := answers_pure.1 h
      have hlook := hopen (by simpa using hsol)
      refine ⟨hst, .cons ⟨rfl, fun _ => id⟩ .nil, fun u' hu' => ?_, by simp, fun u' hu' c hc => ?_⟩
      · rw [List.mem_singleton.1 hu']
        refine ⟨fun c hc => ?_, fun c hc => ?_, fun c hc => ?_, fun c hc => ?_, hu.solution,
          fun hc => absurd hc hclosed⟩
        · obtain ⟨c₀, hc₀, hbec⟩ := exists_of_forall₂_right hup hc
          exact hbec.rel.trans (hu.upper c₀ hc₀)
        · obtain ⟨c₀, hc₀, hbec⟩ := exists_of_forall₂_right heq hc
          exact hbec.rel.trans (hu.equal c₀ hc₀)
        · obtain ⟨c₀, hc₀, hbec⟩ := exists_of_forall₂_right hlow hc
          exact hbec.rel.trans (hu.lower c₀ hc₀)
        · obtain ⟨c₀, hc₀, hbec⟩ := exists_of_forall₂_right hall hc
          exact (hu.fits c₀ hc₀).becomes hτ hlook hbec
      · rw [List.mem_singleton.1 hu'] at hc
        obtain ⟨c', hc', hbec⟩ := exists_of_forall₂ hall hc
        exact ⟨c', hbec, .inr ⟨_, List.mem_cons_self, hc'⟩⟩

/-- Handing solutions to an unknown always answers. -/
theorem hand_total (τ : Subst) (u : Unknown) (m : Memory) : ∃ r m', (u.hand τ).Answers m r m' := by
  unfold hand
  split
  · exact ⟨_, _, rfl⟩
  · obtain ⟨upper, m₁, hupper⟩ := Constraint.replaceAll_total τ u.upper m
    obtain ⟨equal, m₂, hequal⟩ := Constraint.replaceAll_total τ u.equal m₁
    obtain ⟨lower, m₃, hlower⟩ := Constraint.replaceAll_total τ u.lower m₂
    cases hsol : u.solution.isSome with
    | true =>
      exact ⟨_, _, answers_bind.2 ⟨_, _, hupper, answers_bind.2 ⟨_, _, hequal,
        answers_bind.2 ⟨_, _, hlower, by rw [if_pos rfl]; rfl⟩⟩⟩⟩
    | false =>
      exact ⟨_, _, answers_bind.2 ⟨_, _, hupper, answers_bind.2 ⟨_, _, hequal,
        answers_bind.2 ⟨_, _, hlower, by rw [if_neg (by simp)]; rfl⟩⟩⟩⟩

/-- Handing solutions to unknowns keeps what is known and what they say. -/
theorem handAll_answers {us : List Unknown} {r : List Unknown × List Constraint}
    (hm : m.Faithful s) (hus : ∀ u ∈ us, u.Tidy s k U μ ∧ U u.var) (hτ : τ.Clean s k μ.clean)
    (hsub : ∀ i, μ.clean i → μ.used i)
    (hopen : ∀ u ∈ us, u.solution = none → τ.lookup (.declared u.var) = none)
    (h : (handAll τ us).Answers m r m') : m.Stays s m' ∧ Hands s k U μ τ us r.1 r.2 := by
  induction us generalizing r m m' with
  | nil =>
    obtain ⟨rfl, rfl⟩ := answers_pure.1 h
    exact ⟨.refl hm, .nil, by simp, by simp, by simp⟩
  | cons u us ih =>
    obtain ⟨hu, hv⟩ := hus u List.mem_cons_self
    obtain ⟨r₁, m₁, hr₁, h⟩ := answers_bind.1 h
    obtain ⟨hst₁, h₁⟩ := hand_answers hm hu hv hτ hsub (hopen u List.mem_cons_self) hr₁
    obtain ⟨r₂, m₂, hr₂, h⟩ := answers_bind.1 h
    obtain ⟨hst₂, h₂⟩ := ih hst₁.faithful (fun u hu => hus u (List.mem_cons_of_mem _ hu))
      (fun u hu => hopen u (List.mem_cons_of_mem _ hu)) hr₂
    obtain ⟨rfl, rfl⟩ := answers_pure.1 h
    refine ⟨hst₁.trans hst₂, List.rel_append h₁.kept h₂.kept, fun u' hu' => ?_, fun c hc => ?_,
      fun u' hu' c hc => ?_⟩
    · rcases List.mem_cons.1 hu' with rfl | hu'
      · exact h₁.unknowns _ List.mem_cons_self
      · exact h₂.unknowns u' hu'
    · rcases List.mem_append.1 hc with hc | hc
      · exact h₁.pending c hc
      · exact h₂.pending c hc
    · rcases List.mem_cons.1 hu' with rfl | hu'
      · obtain ⟨c', hbec, hc' | ⟨u'', hu'', hc'⟩⟩ := h₁.moved u' List.mem_cons_self c hc
        · exact ⟨c', hbec, .inl (List.mem_append_left _ hc')⟩
        · rw [List.mem_singleton.1 hu''] at hc'
          exact ⟨c', hbec, .inr ⟨_, List.mem_cons_self, hc'⟩⟩
      · obtain ⟨c', hbec, hc' | ⟨u'', hu'', hc'⟩⟩ := h₂.moved u' hu' c hc
        · exact ⟨c', hbec, .inl (List.mem_append_right _ hc')⟩
        · exact ⟨c', hbec, .inr ⟨u'', List.mem_cons_of_mem _ hu'', hc'⟩⟩

/-- Handing solutions to unknowns always answers. -/
theorem handAll_total (τ : Subst) (us : List Unknown) (m : Memory) :
    ∃ r m', (handAll τ us).Answers m r m' := by
  induction us generalizing m with
  | nil => exact ⟨_, _, rfl⟩
  | cons u us ih =>
    obtain ⟨r₁, m₁, hr₁⟩ := hand_total τ u m
    obtain ⟨r₂, m₂, hr₂⟩ := ih m₁
    exact ⟨_, _, answers_bind.2 ⟨_, _, hr₁, answers_bind.2 ⟨_, _, hr₂, rfl⟩⟩⟩

end Unknown

namespace Problem

/-- Unknowns of a tidy problem that have one variable are the same. -/
theorem Tidy.unknown_eq (hp : p.Tidy s k vars μ) {u u' : Unknown} (hu : u ∈ p.unknowns)
    (hu' : u' ∈ p.unknowns) (hvar : u.var = u'.var) : u = u' := by
  have hnodup := hp.distinct.of_map
  rw [← hp.domain] at hnodup
  exact List.inj_on_of_nodup_map hnodup hu hu' hvar

/-- **Handing solutions on loses no constraint.** -/
theorem hand_follows (hm : m.Faithful s) (hp : p.Tidy s k vars μ)
    (hsub : ∀ i, μ.clean i → μ.used i) (h : p.hand.Answers m p' m') :
    m.Stays s m' ∧ p'.Tidy s k vars μ ∧ Leads s k vars m m' p p' := by
  obtain ⟨r, m₁, hr, h⟩ := answers_bind.1 h
  obtain ⟨rfl, rfl⟩ := answers_pure.1 h
  have hopen : ∀ u ∈ p.unknowns, u.solution = none →
      (p.solutionsWhere fun u => u.solution.isSome).lookup (.declared u.var) = none := by
    intro u hu hsol
    cases hlook : (p.solutionsWhere fun u => u.solution.isSome).lookup (.declared u.var) with
    | none => rfl
    | some t =>
      obtain ⟨u', hu', _, ht, hkey⟩ := lookup_solutionsWhere hlook
      have hvar := hp.var_eq (hp.mem_vars hu') (hp.mem_vars hu) hkey
      rw [hp.unknown_eq hu' hu hvar, hsol] at ht
      cases ht
  obtain ⟨hst, hands⟩ := Unknown.handAll_answers hm
    (fun u hu => ⟨hp.unknowns u hu, hp.mem_vars hu⟩) (hp.clean _) hsub hopen hr
  refine ⟨hst, ⟨?_, hp.distinct, fun c hc => ?_, hands.unknowns⟩, hands.kept,
    fun σ hagree hholds => ?_⟩
  · exact (forall₂_extends_vars hands.kept).trans hp.domain
  · rcases List.mem_append.1 hc with hc | hc
    · exact hp.pending c hc
    · exact hands.pending c hc
  · have hagree' : p.Agrees σ := Agrees.of_kept hands.kept hagree
    rw [hst.keeps.scope_eq] at hholds
    refine ⟨fun c hc => hholds.1 c (List.mem_append_left _ hc), fun u hu c hc => ?_⟩
    obtain ⟨c', hbec, hc'⟩ := hands.moved u hu c hc
    refine hbec.holds (hp.agrees hagree' _) (hp.clean _) ?_
    rcases hc' with hc' | ⟨u', hu', hc'⟩
    · exact hholds.1 c' (List.mem_append_right _ hc')
    · exact hholds.2 u' hu' c' hc'

/-- Handing solutions on always answers. -/
theorem hand_total (p : Problem) (m : Memory) : ∃ p' m', p.hand.Answers m p' m' := by
  obtain ⟨r, m₁, hr⟩ := Unknown.handAll_total (p.solutionsWhere fun u => u.solution.isSome)
    p.unknowns m
  exact ⟨_, _, answers_bind.2 ⟨_, _, hr, rfl⟩⟩

/-- **Settling by equalities loses nothing**, and captures nothing. -/
theorem settle_follows (hs : s.Regular k) {n : Nat} (hm : m.Faithful s) (hp : p.Tidy s k vars μ)
    (hsub : ∀ i, μ.clean i → μ.used i) (h : (settle n p).Answers m p' m') :
    m.Stays s m' ∧ p'.Tidy s k vars μ ∧ Leads s k vars m m' p p' := by
  induction n generalizing p m with
  | zero =>
    obtain ⟨rfl, rfl⟩ := answers_pure.1 h
    exact ⟨.refl hm, hp, forall₂_extends_refl _, fun _ _ => id⟩
  | succ n ih =>
    have hpro := promote_tidy hp
    have hlead := promote_leads (m := m) hs hp
    rw [settle] at h
    split at h
    · obtain ⟨p₁, m₁, hhand, h⟩ := answers_bind.1 h
      obtain ⟨hst₁, htidy₁, hlead₁⟩ := hand_follows hm hpro hsub hhand
      obtain ⟨hst₂, htidy₂, hlead₂⟩ := ih hst₁.faithful htidy₁ h
      exact ⟨hst₁.trans hst₂, htidy₂, (hlead.trans hlead₁).trans hlead₂⟩
    · obtain ⟨rfl, rfl⟩ := answers_pure.1 h
      exact ⟨.refl hm, hpro, hlead⟩

/-- Settling always answers. -/
theorem settle_total (n : Nat) (p : Problem) (m : Memory) :
    ∃ p' m', (settle n p).Answers m p' m' := by
  induction n generalizing p m with
  | zero => exact ⟨_, _, rfl⟩
  | succ n ih =>
    rw [settle]
    split
    · obtain ⟨p₁, m₁, hhand⟩ := hand_total p.promote m
      obtain ⟨p₂, m₂, hrest⟩ := ih p₁ m₁
      exact ⟨_, _, answers_bind.2 ⟨_, _, hhand, hrest⟩⟩
    · exact ⟨_, _, rfl⟩

end Problem

/-! ### Picking among bounds -/

namespace Unknown

/-- What picking a solution for an unknown keeps, judged in a scope. -/
structure Picks (s : Setting) (k : Fragment) (U : TypeVar → Prop) (μ : Marks) (Γ : Scope)
    (u u' : Unknown) : Prop where
  kept : u.Extends u'
  tidy : u'.Tidy s k U μ
  holds : ∀ σ, (∀ t, u'.solution = some t → t.vars = [] ∧ t.shape = σ (.declared u'.var)) →
    (∀ c ∈ u'.filed, c.Holds (Good s k Γ U σ)) → ∀ c ∈ u.filed, c.Holds (Good s k Γ U σ)

/-- Picking nothing keeps an unknown as it is. -/
theorem Picks.refl {Γ : Scope} {u : Unknown} (h : u.Tidy s k U μ) : Picks s k U μ Γ u u :=
  ⟨.refl u, h, fun _ _ => id⟩

variable {Γ : Scope} {u : Unknown}

/-- Comparisons of bounds decide whether they are below each other. -/
theorem below_bounds (hs : s.Regular k) (hΓ : Γ.Sound s k μ.clean) {a b : Ty}
    (ha : a.Regular s k ∧ a.Over μ.clean) (hb : b.Regular s k ∧ b.Over μ.clean) :
    Decides (Memory.Within s k Γ) (s.below a b) (Below s Γ a.shape b.shape) :=
  Setting.below_decides hs Γ μ.clean a b ⟨hΓ, ha.1.whole, hb.1.whole, ha.2, hb.2⟩

/-- A type is admitted exactly if it is between the bounds. -/
theorem admits_decides (hs : s.Regular k) (hΓ : Γ.Sound s k μ.clean) {t : Ty}
    (hbounds : ∀ c ∈ u.lower ++ u.upper, c.rhs.Regular s k ∧ c.rhs.Over μ.clean)
    (ht : t.Regular s k ∧ t.Over μ.clean) :
    Decides (Memory.Within s k Γ) (u.admits s t)
      ((∀ high ∈ u.upper, Below s Γ t.shape high.rhs.shape) ∧
        ∀ low ∈ u.lower, Below s Γ low.rhs.shape t.shape) :=
  (Decides.all fun high hhigh => below_bounds hs hΓ ht
    (hbounds high (List.mem_append_right _ hhigh))).both fun _ =>
    Decides.all fun low hlow => below_bounds hs hΓ (hbounds low (List.mem_append_left _ hlow)) ht

/-- Looking for bounds that clash stays in the scope. -/
theorem clash?_within (hs : s.Regular k) (hΓ : Γ.Sound s k μ.clean)
    (hbounds : ∀ c ∈ u.lower ++ u.upper, c.rhs.Regular s k ∧ c.rhs.Over μ.clean)
    {r : Option Constraint} (hm : m.Within s k Γ) (h : (u.clash? s).Answers m r m') :
    m'.Within s k Γ := by
  obtain ⟨found, m₁, hfound, h⟩ := answers_bind.1 h
  obtain ⟨rfl, rfl⟩ := answers_pure.1 h
  refine (Decides.first? (P := fun pair : Constraint × Constraint =>
    ¬ Below s Γ pair.1.rhs.shape pair.2.rhs.shape) (fun pair hpair => ?_) hm hfound).1
  obtain ⟨low, hlow, hpair⟩ := List.mem_flatMap.1 hpair
  obtain ⟨high, hhigh, rfl⟩ := List.mem_map.1 hpair
  intro m r m' hm hr
  obtain ⟨b, m₁, hb, hr⟩ := answers_bind.1 hr
  obtain ⟨rfl, rfl⟩ := answers_pure.1 hr
  obtain ⟨hm', hiff⟩ := below_bounds hs hΓ (hbounds low (List.mem_append_left _ hlow))
    (hbounds high (List.mem_append_right _ hhigh)) m b _ hm hb
  refine ⟨hm', ?_⟩
  rw [← hiff]
  cases b <;> simp

/-- Picking a solution among bounds that mention clean variables only. -/
theorem picks_of_admits (hs : s.Regular k) (hΓ : Γ.Sound s k μ.clean) (hu : u.Tidy s k U μ)
    (hopen : u.closed = false) (hsol : u.solution = none)
    (hbounds : ∀ c ∈ u.lower ++ u.upper, c.rhs.Regular s k ∧ c.rhs.Over μ.clean) {c : Constraint}
    (hc : c ∈ u.lower ++ u.upper)
    (hupper : ∀ high ∈ u.upper, Below s Γ c.rhs.shape high.rhs.shape)
    (hlower : ∀ low ∈ u.lower, Below s Γ low.rhs.shape c.rhs.shape) :
    Picks s k U μ Γ u { u with solution := some c.rhs, upper := [], lower := [] } := by
  have hfiled : ∀ d ∈ u.lower ++ u.upper, d ∈ u.filed := by
    intro d hd
    simp only [filed, List.mem_append] at hd ⊢
    rcases hd with hd | hd
    · exact .inr hd
    · exact .inl (.inl hd)
  have hgood : ∀ {a b : Ty} {σ : Var → Ty}, a.Regular s k ∧ a.Over μ.clean →
      b.Regular s k ∧ b.Over μ.clean → Below s Γ a.shape b.shape → Good s k Γ U σ a b := by
    intro a b σ ha hb hbelow
    exact Good.shape_iff.1 (good_of_below hs hbelow hΓ ha.1.shape.whole hb.1.shape.whole
      ha.2.shape hb.2.shape)
  refine ⟨⟨rfl, fun t ht => by rw [hsol] at ht; cases ht⟩, ⟨by simp, hu.equal, by simp, ?_, ?_, ?_⟩,
    fun σ hagree hholds d hd => ?_⟩
  · intro d hd
    refine hu.fits d ?_
    simp only [filed, List.nil_append, List.append_nil] at hd
    simp only [filed, List.mem_append]
    exact .inl (.inr hd)
  · intro t ht
    injection ht with ht
    subst ht
    exact ⟨(hbounds c hc).1, (hu.fits c (hfiled c hc)).flat, (hbounds c hc).2⟩
  · intro hclosed
    have hclosed' : u.closed = true := hclosed
    rw [hopen] at hclosed'
    cases hclosed'
  · obtain ⟨ht, hσ⟩ := hagree c.rhs rfl
    have hlhs := (hu.fits d hd).lhs
    simp only [filed, List.mem_append] at hd
    rcases hd with (hd | hd) | hd
    · unfold Claim.Holds
      rw [hu.upper d hd, hlhs]
      exact Good.solution_left ht hσ (hgood (hbounds c hc)
        (hbounds d (List.mem_append_right _ hd)) (hupper d hd))
    · exact hholds d (by simpa [filed] using hd)
    · unfold Claim.Holds
      rw [hu.lower d hd, hlhs]
      exact Good.solution_right ht hσ (hgood (hbounds d (List.mem_append_left _ hd))
        (hbounds c hc) (hlower d hd))

/-- **What is picked for an unknown is between its bounds.** -/
theorem pick_answers (hs : s.Regular k) (hΓ : Γ.Sound s k μ.clean) (hu : u.Tidy s k U μ)
    {mentions : Ty → Bool}
    (hclear : ∀ t : Ty, t.Known U μ.clean → mentions t = false → t.Over μ.clean)
    {r : Except Failure Unknown} (hm : m.Within s k Γ) (h : (u.pick s mentions).Answers m r m') :
    m'.Within s k Γ ∧ ∀ u', r = .ok u' → Picks s k U μ Γ u u' := by
  unfold pick at h
  split at h
  · next hbounds =>
    simp only [hasClearBounds, Bool.and_eq_true, Bool.not_eq_true', Option.isNone_iff_eq_none,
      List.all_eq_true] at hbounds
    obtain ⟨⟨⟨hopen, hsol⟩, _⟩, hmentions⟩ := hbounds
    have hover : ∀ c ∈ u.lower ++ u.upper, c.rhs.Regular s k ∧ c.rhs.Over μ.clean := by
      intro c hc
      have hfits : Fits s k U μ u.var c := by
        refine hu.fits c ?_
        simp only [filed, List.mem_append] at hc ⊢
        rcases hc with hc | hc
        · exact .inr hc
        · exact .inl (.inl hc)
      exact ⟨hfits.regular, hclear c.rhs hfits.known (hmentions c hc)⟩
    obtain ⟨clash, m₁, hclash, h⟩ := answers_bind.1 h
    have hm₁ := clash?_within hs hΓ hover hm hclash
    cases clash with
    | some c =>
      obtain ⟨rfl, rfl⟩ := answers_pure.1 h
      exact ⟨hm₁, by simp⟩
    | none =>
      obtain ⟨found, m₂, hfound, h⟩ := answers_bind.1 h
      obtain ⟨hm₂, hsome, _⟩ := Decides.first?
        (fun c hc => admits_decides hs hΓ hover (hover c hc)) hm₁ hfound
      cases found with
      | none =>
        obtain ⟨rfl, rfl⟩ := answers_pure.1 h
        refine ⟨hm₂, fun u' hu' => ?_⟩
        injection hu' with hu'
        exact hu' ▸ .refl hu
      | some c =>
        obtain ⟨rfl, rfl⟩ := answers_pure.1 h
        obtain ⟨hc, hupper, hlower⟩ := hsome c rfl
        refine ⟨hm₂, fun u' hu' => ?_⟩
        injection hu' with hu'
        subst hu'
        exact picks_of_admits hs hΓ hu hopen hsol hover hc hupper hlower
  · obtain ⟨rfl, rfl⟩ := answers_pure.1 h
    refine ⟨hm, fun u' hu' => ?_⟩
    injection hu' with hu'
    exact hu' ▸ .refl hu

/-- What is picked for unknowns is between their bounds. -/
theorem pickAll_answers (hs : s.Regular k) (hΓ : Γ.Sound s k μ.clean) {us : List Unknown}
    (hus : ∀ u ∈ us, u.Tidy s k U μ) {mentions : Ty → Bool}
    (hclear : ∀ t : Ty, t.Known U μ.clean → mentions t = false → t.Over μ.clean)
    {r : Except Failure (List Unknown)} (hm : m.Within s k Γ)
    (h : (pickAll s mentions us).Answers m r m') :
    m'.Within s k Γ ∧ ∀ us', r = .ok us' → List.Forall₂ (Picks s k U μ Γ) us us' := by
  induction us generalizing r m m' with
  | nil =>
    obtain ⟨rfl, rfl⟩ := answers_pure.1 h
    refine ⟨hm, fun us' hus' => ?_⟩
    injection hus' with hus'
    exact hus' ▸ .nil
  | cons u us ih =>
    obtain ⟨r₁, m₁, hr₁, h⟩ := answers_bind.1 h
    obtain ⟨hm₁, hpick⟩ := pick_answers hs hΓ (hus u List.mem_cons_self) hclear hm hr₁
    cases r₁ with
    | error f =>
      obtain ⟨rfl, rfl⟩ := answers_pure.1 h
      exact ⟨hm₁, by simp⟩
    | ok u' =>
      obtain ⟨r₂, m₂, hr₂, h⟩ := answers_bind.1 h
      obtain ⟨hm₂, hrest⟩ := ih (fun u hu => hus u (List.mem_cons_of_mem _ hu)) hm₁ hr₂
      obtain ⟨rfl, rfl⟩ := answers_pure.1 h
      refine ⟨hm₂, fun us' hus' => ?_⟩
      cases r₂ with
      | error f => cases hus'
      | ok us₂ =>
        injection hus' with hus'
        exact hus' ▸ .cons (hpick u' rfl) (hrest us₂ rfl)

end Unknown

namespace Problem

/-- **Picking loses no constraint.** -/
theorem pick_follows (hs : s.Regular k) (hm : m.Faithful s) (htame : m.Tame s k)
    (hg : m.scope.Grounded s k (· ∈ vars) μ) (hp : p.Tidy s k vars μ)
    {r : Except Failure Problem} (h : (p.pick s).Answers m r m') :
    m.Grows s k m' ∧ ∀ p', r = .ok p' →
      p'.pending = p.pending ∧ p'.Tidy s k vars μ ∧ Leads s k vars m m' p p' := by
  obtain ⟨us, m₁, hus, h⟩ := answers_bind.1 h
  obtain ⟨rfl, rfl⟩ := answers_pure.1 h
  obtain ⟨hwithin, hpicks⟩ := Unknown.pickAll_answers hs hg.sound hp.unknowns
    (fun t => over_of_mentions hp) ⟨hm, .refl _, htame⟩ hus
  refine ⟨⟨hwithin.faithful, hwithin.le, fun _ => hwithin.tame⟩, fun p' hp' => ?_⟩
  cases us with
  | error f => cases hp'
  | ok us' =>
    injection hp' with hp'
    subst hp'
    have hall := hpicks us' rfl
    have hkept : List.Forall₂ Unknown.Extends p.unknowns us' := hall.imp fun _ _ h => h.kept
    refine ⟨rfl, ⟨(forall₂_extends_vars hkept).trans hp.domain, hp.distinct, hp.pending,
      fun u' hu' => ?_⟩, hkept, fun σ hagree hholds => ?_⟩
    · obtain ⟨i, hi, rfl⟩ := List.getElem_of_mem hu'
      have hi' : i < p.unknowns.length := hall.length_eq ▸ hi
      exact (hall.get hi' hi).tidy
    · refine ⟨fun c hc => holds_mono hwithin.le (hholds.1 c hc), fun u hu c hc => ?_⟩
      obtain ⟨i, hi, rfl⟩ := List.getElem_of_mem hu
      have hi' : i < us'.length := hall.length_eq ▸ hi
      have hmem : us'.get ⟨i, hi'⟩ ∈ us' := List.getElem_mem hi'
      exact (hall.get hi hi').holds σ (hagree _ hmem)
        (fun d hd => holds_mono hwithin.le (hholds.2 _ hmem d hd)) c hc

/-- A problem with nothing left to do has no constraint. -/
theorem holds_of_done (hp : p.Tidy s k vars μ) (hpend : p.pending = [])
    (hripe : p.isRipe = false) (hsolved : ∀ u ∈ p.unknowns, u.solution.isSome = true)
    (P : Ty → Ty → Prop) : p.Holds P := by
  refine ⟨by simp [hpend], fun u hu c hc => ?_⟩
  rw [isRipe, List.any_eq_false] at hripe
  have hclosed : u.closed = true := by
    cases hclosed : u.closed with
    | true => rfl
    | false => exact absurd (by simp [Unknown.isRipe, hclosed, hsolved u hu]) (hripe u hu)
  rw [((hp.unknowns u hu).closed hclosed).2] at hc
  cases hc

/-- The solutions of an outcome are those of its unknowns, in order. -/
theorem outcome_solutions {types : List Ty} (h : p.outcome.solutions = some types) :
    List.Forall₂ (fun u t => u.solution = some t) p.unknowns types := by
  unfold outcome at h
  dsimp only at h
  split at h
  · next hall =>
    injection h with h
    subst h
    rw [List.isEmpty_iff, List.filter_eq_nil_iff] at hall
    generalize p.unknowns = us at hall ⊢
    induction us with
    | nil => exact .nil
    | cons u us ih =>
      have hu := hall u List.mem_cons_self
      obtain ⟨t, ht⟩ := Option.ne_none_iff_exists'.1 (by simpa using hu)
      rw [List.filterMap_cons_some ht]
      exact .cons ht (ih fun u' hu' => hall u' (List.mem_cons_of_mem _ hu'))
  · cases h

/-- **Settling loses nothing**, and keeps the problem tidy. -/
theorem advanceSettled_follows (hs : s.Regular k) {r : Progress} (hm : m.Faithful s)
    (htame : m.Tame s k) (hg : m.scope.Grounded s k (· ∈ vars) μ) (hp : p.Tidy s k vars μ)
    (h : (p.advanceSettled s).Answers m r m') :
    m.Grows s k m' ∧ ∃ ν, μ.Le ν ∧ m'.scope.Grounded s k (· ∈ vars) ν ∧
      p.Follows s k vars ν m m' r := by
  obtain ⟨p₁, m₁, hsettle, h⟩ := answers_bind.1 h
  obtain ⟨hst, htidy, hlead⟩ := settle_follows hs hm hp hg.clean hsettle
  have hg₁ : m₁.scope.Grounded s k (· ∈ vars) μ := by
    rw [hst.keeps.scope_eq]
    exact hg
  split at h
  · next hpend =>
    obtain ⟨r₁, m₂, hpick, h⟩ := answers_bind.1 h
    obtain ⟨hgrows, hpicked⟩ := pick_follows hs hst.faithful (hst.keeps.tame htame) hg₁ htidy hpick
    have hgrows' := (hst.grows k).trans hgrows
    cases r₁ with
    | error f =>
      obtain ⟨rfl, rfl⟩ := answers_pure.1 h
      exact ⟨hgrows', μ, .refl μ, hg₁.mono hgrows.le, fun types htypes => by cases htypes⟩
    | ok p₂ =>
      obtain ⟨hpend₂, htidy₂, hlead₂⟩ := hpicked p₂ rfl
      have hlead' := hlead.trans hlead₂
      simp only at h
      split at h
      · obtain ⟨rfl, rfl⟩ := answers_pure.1 h
        exact ⟨hgrows', μ, .refl μ, hg₁.mono hgrows.le,
          ⟨htidy₂.domain, htidy₂.distinct, htidy₂.pending, htidy₂.unknowns⟩,
          hlead'.kept, hlead'.holds⟩
      · next hripe =>
        obtain ⟨rfl, rfl⟩ := answers_pure.1 h
        refine ⟨hgrows', μ, .refl μ, hg₁.mono hgrows.le, fun types htypes => ?_⟩
        have hall := outcome_solutions htypes
        refine ⟨p₂, htidy₂, hlead', holds_of_done htidy₂ ?_ (Bool.eq_false_iff.2 hripe)
          fun u hu => ?_, hall⟩
        · rw [hpend₂]
          exact List.isEmpty_iff.1 hpend
        · obtain ⟨i, hi, rfl⟩ := List.getElem_of_mem hu
          have := hall.get hi (hall.length_eq ▸ hi)
          rw [List.get_eq_getElem] at this
          rw [this]
          rfl
  · obtain ⟨rfl, rfl⟩ := answers_pure.1 h
    exact ⟨hst.grows k, μ, .refl μ, hg₁, htidy, hlead⟩

/-- **Advancing a problem loses nothing**, and keeps the problem tidy. -/
theorem advance_follows (hs : s.Regular k) {r : Progress} (hm : m.Faithful s)
    (htame : m.Tame s k) (hg : m.scope.Grounded s k (· ∈ vars) μ) (hp : p.Tidy s k vars μ)
    (h : (p.advance s).Answers m r m') :
    m.Grows s k m' ∧ ∃ ν, μ.Le ν ∧ m'.scope.Grounded s k (· ∈ vars) ν ∧
      p.Follows s k vars ν m m' r := by
  unfold advance at h
  split at h
  · next c rest hpend => exact advanceBy_follows hs hm htame hg hp hpend h
  · exact advanceSettled_follows hs hm htame hg hp h

end Problem
end Inference
end Generics
