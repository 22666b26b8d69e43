/-
# Problems that are met

A `Filling` puts closed types in for the unknowns of a problem. The problem is `Met` by a filling if
its solutions are those of the filling and its constraints hold with the types put in. Reducing the
oldest constraint of a simple problem can do few things (`Problem.Moves`), and each of them keeps the
problem met (`Problem.Moves.met`), as settling the unknowns by equalities does
(`Problem.settle_met`). So a search that has not picked among bounds asks for nothing but what every
solution has.
-/

import Generics.Proofs.Necessity

namespace Generics
namespace Inference

open Query

variable {s : Setting} {k : Fragment} {vars : List TypeVar} {σ : Var → Ty} {Γ : Scope}
  {m m' : Memory} {μ : Marks} {τ : Subst}

/-- A simple claim mentions unknowns only. -/
theorem Claim.Simple.known {c : Claim} (h : c.Simple s vars) :
    (∀ v ∈ c.lhs.vars, ∃ w ∈ vars, v = .declared w) ∧
      ∀ v ∈ c.rhs.vars, ∃ w ∈ vars, v = .declared w := by
  refine ⟨h.lhs.known, fun v hv => ?_⟩
  rcases h.asked with hrhs | ⟨n, hn, hopen⟩
  · exact hrhs.known v hv
  · rw [hn, Nominal.toTy, Ty.vars] at hv
    obtain ⟨a, ha, hv⟩ := Arg.mem_varsAll.1 hv
    cases a with
    | type t => exact (hopen _ ha t List.mem_cons_self).known v hv
    | wild u l =>
      rcases List.mem_append.1 hv with hv | hv
      · exact (hopen _ ha u List.mem_cons_self).known v hv
      · exact (hopen _ ha l (List.mem_cons_of_mem _ List.mem_cons_self)).known v hv

namespace Constraint.Becomes

variable {c c' : Constraint}

/-- Putting types in for unknowns leaves what a constraint says, if they agree with the filling. -/
theorem under (h : c.Becomes τ c') (hc : c.toClaim.Simple s vars) (hτ : τ.Agrees (· ∈ vars) σ) :
    c'.Holds (s.Under Γ σ) ↔ c.Holds (s.Under Γ σ) := by
  unfold Claim.Holds Setting.Under
  rw [h.rel, h.lhs.fill hc.known.1 hτ, h.rhs.fill hc.known.2 hτ]

/-- Putting closed plain types in for unknowns leaves a constraint simple. -/
theorem simple (h : c.Becomes τ c') (hc : c.toClaim.Simple s vars)
    (hτ : ∀ v u, τ.lookup v = some u → u.Simple s []) : c'.toClaim.Simple s vars := by
  refine ⟨hc.lhs.replaced h.lhs.shape hτ, ?_⟩
  rcases hc.rhs with hrhs | ⟨hrel, hunknown, n, hn, hopen⟩
  · exact .inl (hrhs.replaced h.rhs.shape hτ)
  · refine .inr ⟨h.rel.trans hrel, ?_, ?_⟩
    · rintro ⟨v, hv⟩
      have hshape := h.lhs.shape
      rw [hv] at hshape
      cases hlhs : c.lhs with
      | var w =>
        obtain ⟨w', _, rfl⟩ := hc.lhs.known w (by rw [hlhs]; exact List.mem_cons_self)
        exact hunknown ⟨w', hlhs⟩
      | _ =>
        rw [hlhs] at hshape
        cases hshape
    · have hshape := h.rhs.shape
      rw [hn, Nominal.toTy, Ty.rebuild_nominal] at hshape
      obtain ⟨n', hn', _, hargs⟩ := Ty.of_shape_nominal hshape
      refine ⟨n', hn', fun a' ha' t' ht' => ?_⟩
      -- Each part of the new arguments is a part of the old ones, replaced.
      obtain ⟨a, ha, t, ht, hshape⟩ := Arg.exists_part_rebuilt hargs ha' ht'
      exact (hopen a ha t ht).replaced hshape.symm hτ

end Constraint.Becomes

namespace Unknown

/-- A constraint that an unknown refuses to file is on the type of null. -/
theorem file_eq_error {u : Unknown} {c : Constraint} {f : Failure} (h : u.file c = .error f) :
    c.rhs = .null ∧ c.rel ≠ .above := by
  unfold file at h
  split at h
  · next hnull =>
    split at h
    · cases h
    · next habove => exact ⟨hnull, habove⟩
  · cases hrel : c.rel <;> rw [hrel] at h <;> cases h

/-- A constraint that cannot be filed is on the type of null. -/
theorem fileWith_eq_error {key : VarKey} {c : Constraint} {us : List Unknown} {f : Failure}
    (h : fileWith key c us = .error f) : c.rhs = .null ∧ c.rel ≠ .above := by
  induction us with
  | nil => cases h
  | cons u us ih =>
    rw [fileWith] at h
    split at h
    · cases hfile : u.file c with
      | error f' => exact file_eq_error hfile
      | ok u' =>
        rw [hfile] at h
        cases h
    · cases hwith : fileWith key c us with
      | error f' =>
        rw [hwith] at h
        injection h with h
        exact ih (hwith.trans (congrArg _ h))
      | ok us' =>
        rw [hwith] at h
        cases h

end Unknown

namespace Problem

variable {p p' : Problem} {c c' : Constraint} {rest : List Constraint} {r : Progress}

/-- The pending and filed constraints are on simple types, and the solutions are closed plain ones. -/
structure Simple (s : Setting) (vars : List TypeVar) (p : Problem) : Prop where
  pending : ∀ c ∈ p.pending, c.toClaim.Simple s vars
  filed : ∀ u ∈ p.unknowns, ∀ c ∈ u.filed, c.rhs.Simple s vars
  solved : ∀ u ∈ p.unknowns, ∀ t, u.solution = some t → t.Simple s []

/-- The types put in are solutions: those that were found, and they meet the constraints. -/
structure Met (s : Setting) (Γ : Scope) (σ : Var → Ty) (p : Problem) : Prop where
  agrees : p.Agrees σ
  holds : p.Holds (s.Under Γ σ)

/-- What the reduction of the oldest constraint can do to a simple problem: the constraint, with
solutions in the place of closed unknowns, says nothing, is filed, cannot be filed, or is taken
apart. -/
inductive Moves (s : Setting) (k : Fragment) (m m' : Memory) (p : Problem) (c : Constraint)
    (rest : List Constraint) : Progress → Prop
  | dropped {d : Constraint} {u : Unknown} : (d = c ∨ d = c.flip) → u ∈ p.unknowns →
    d.lhs = .var (.declared u.var) → d.rhs = .null → d.rel = .above →
      Moves s k m m' p c rest (.further { p with pending := rest })
  | filed {d : Constraint} {pre post : List Unknown} {u : Unknown} : (d = c ∨ d = c.flip) →
    p.unknowns = pre ++ u :: post → d.lhs = .var (.declared u.var) →
      Moves s k m m' p c rest
        (.further { p with pending := rest, unknowns := pre ++ u.add d :: post })
  | barred {d : Constraint} {w : TypeVar} {f : Failure} : (d = c ∨ d = c.flip) →
    d.lhs = .var (.declared w) → d.rhs = .null → d.rel ≠ .above →
      Moves s k m m' p c rest (.done { failure := some f })
  | reduced {cs : List Constraint} {m₁ : Memory} : m.Stays s m₁ → Setting.FacesInter c.toClaim →
    s.Resolves k m₁ m' c.toClaim (.all (cs.map Constraint.toClaim)) →
      Moves s k m m' p c rest (.further { p with pending := rest ++ cs })
  | refuted {m₁ : Memory} {f : Failure} : m.Stays s m₁ → s.Resolves k m₁ m' c.toClaim .never →
    Moves s k m m' p c rest (.done { failure := some f })

/-- The solutions of a simple problem are closed plain types. -/
theorem Simple.solutions (h : p.Simple s vars) (cond : Unknown → Bool) :
    ∀ v t, (p.solutionsWhere cond).lookup v = some t → t.Simple s [] := by
  intro v t hlook
  obtain ⟨u, hu, _, ht, _⟩ := lookup_solutionsWhere hlook
  exact h.solved u hu t ht

/-- **What one reduction can do to a simple problem.** -/
theorem advanceBy_moves (hs : s.Regular k) (hplain : s.Plain) (hm : m.Faithful s)
    (hg : m.scope.Grounded s k (· ∈ vars) μ) (hp : p.Tidy s k vars μ) (hsimple : p.Simple s vars)
    (hpend : p.pending = c :: rest) (h : (p.advanceBy s c rest).Answers m r m') :
    ∃ c', c.Becomes (p.solutionsWhere Unknown.closed) c' ∧ c'.toClaim.Simple s vars ∧
      p.Moves s k m m' c' rest r := by
  have hctidy := hp.pending c (by rw [hpend]; exact List.mem_cons_self)
  have hcsimple := hsimple.pending c (by rw [hpend]; exact List.mem_cons_self)
  have hp₀ : ({ p with pending := rest } : Problem).Tidy s k vars μ :=
    ⟨hp.domain, hp.distinct, fun d hd => hp.pending d (by rw [hpend]; exact List.mem_cons_of_mem _ hd),
      hp.unknowns⟩
  obtain ⟨red, m₁, hred, h⟩ := answers_bind.1 h
  obtain ⟨c', m₂, hbec, hst, hcases⟩ := reduce_answers hm hp₀ hg.clean hctidy hred
  have htidy := hbec.tidy (hp₀.clean _) hg.clean hctidy
  have hsimple' := hbec.simple hcsimple (hsimple.solutions _)
  refine ⟨c', hbec, hsimple', ?_⟩
  rcases hcases with ⟨w, d, hd, hlhs, hflat, rfl, rfl⟩ | ⟨hfaces, hrigid⟩
  · rw [file] at h
    cases hfile : Unknown.fileWith w.key d p.unknowns with
    | ok us =>
      simp only [hfile] at h
      obtain ⟨rfl, rfl⟩ := answers_pure.1 h
      have hw : w ∈ vars := by
        have hknown : d.lhs.Known (· ∈ vars) μ.used := by
          rcases hd with rfl | rfl
          · exact htidy.leftKnown
          · exact htidy.rightKnown
        rw [hlhs] at hknown
        exact hknown.unknown
      obtain ⟨pre, u, post, u', hus, rfl, hu, rfl, hu'⟩ := hp.file_eq_ok hw hfile
      rcases Unknown.file_eq_ok hu' with ⟨hnull, habove, rfl⟩ | rfl
      · rw [← hus]
        exact .dropped hd hu hlhs hnull habove
      · exact .filed hd hus hlhs
    | error f =>
      simp only [hfile] at h
      obtain ⟨rfl, rfl⟩ := answers_pure.1 h
      obtain ⟨hnull, habove⟩ := Unknown.fileWith_eq_error hfile
      exact .barred hd hlhs hnull habove
  · obtain ⟨v, hres, hasks⟩ :=
      Setting.reduceRigid_answers hs hst.faithful htidy.left htidy.right hfaces hrigid
    have hv := hres.simple hplain hsimple'
    cases v with
    | all claims =>
      cases red with
      | allOf cs =>
        obtain rfl : cs.map Constraint.toClaim = claims := hasks
        obtain ⟨rfl, rfl⟩ := answers_pure.1 h
        exact .reduced hst hfaces hres
      | _ => cases hasks
    | one _ => cases hv
    | never =>
      cases red with
      | refuted f =>
        obtain ⟨rfl, rfl⟩ := answers_pure.1 h
        exact .refuted hst hres
      | _ => cases hasks

/-- What is filed of a simple constraint is on a simple type. -/
theorem simple_of_filed {d : Constraint} {w : TypeVar} (hc : c.toClaim.Simple s vars)
    (hd : d = c ∨ d = c.flip) (hlhs : d.lhs = .var (.declared w)) : d.rhs.Simple s vars := by
  rcases hd with rfl | rfl
  · exact hc.rhs.resolve_right fun h => h.2.1 ⟨w, hlhs⟩
  · exact hc.lhs

/-- What is filed is on an unknown. -/
theorem mem_of_filed {d : Constraint} {w : TypeVar} (hc : c.toClaim.Simple s vars)
    (hd : d = c ∨ d = c.flip) (hlhs : d.lhs = .var (.declared w)) : w ∈ vars := by
  have hknown : ∀ v ∈ d.lhs.vars, ∃ u ∈ vars, v = .declared u := by
    rcases hd with rfl | rfl
    · exact hc.known.1
    · exact hc.known.2
  obtain ⟨u, hu, heq⟩ := hknown (.declared w) (by rw [hlhs]; exact List.mem_cons_self)
  cases heq
  exact hu

/-- A simple problem stays one. -/
theorem Moves.simple (hplain : s.Plain) (hp : p.Simple s vars) (hpend : p.pending = c' :: rest)
    (hc : c.toClaim.Simple s vars) (h : p.Moves s k m m' c rest (.further p')) :
    p'.Simple s vars ∧ p'.picked = p.picked := by
  have hrest : ∀ d ∈ rest, d.toClaim.Simple s vars := fun d hd =>
    hp.pending d (by rw [hpend]; exact List.mem_cons_of_mem _ hd)
  cases h with
  | dropped _ _ _ _ _ => exact ⟨⟨hrest, hp.filed, hp.solved⟩, rfl⟩
  | @filed d pre post u hd hus hlhs =>
    refine ⟨⟨hrest, fun x hx e he => ?_, fun x hx t ht => ?_⟩, rfl⟩
    · obtain ⟨y, hy, -, -, hfiled⟩ := Unknown.mem_add hus hx
      rcases hfiled e he with rfl | he
      · exact simple_of_filed hc hd hlhs
      · exact hp.filed y hy e he
    · obtain ⟨y, hy, -, hsol, -⟩ := Unknown.mem_add hus hx
      exact hp.solved y hy t (hsol.trans ht)
  | @reduced cs _ _ _ hres =>
    have hcs := hres.simple hplain hc
    refine ⟨⟨fun d hd => ?_, hp.filed, hp.solved⟩, rfl⟩
    rcases List.mem_append.1 hd with hd | hd
    · exact hrest d hd
    · obtain ⟨hl, hr⟩ := hcs d.toClaim (List.mem_map_of_mem hd)
      exact ⟨hl, .inl hr⟩

/-- An unknown is below the type of null only if that is put in for it. -/
theorem eq_null_of_below (hs : s.Regular k) (hacyc : s.Acyclic) (hσ : Filling s vars σ) {w : TypeVar}
    (hw : w ∈ vars) (h : s.Under Γ σ (.var (.declared w)) .null) : σ (.declared w) = .null :=
  Below.antisymm hs hacyc h (.null Γ _) (hσ.regular w hw) (by rw [Ty.Regular]; trivial)
    (hσ.closed w hw) rfl

/-- **A problem stays met**, and reducing does not fail unless an unknown is filled by `Null`. -/
theorem Moves.met (hs : s.Regular k) (hacyc : s.Acyclic) (hσ : Filling s vars σ)
    (hpend : p.pending = c' :: rest) (hmet : p.Met s Γ σ) (hc : c.toClaim.Simple s vars)
    (hholds : c.Holds (s.Under Γ σ)) (h : p.Moves s k m m' c rest r) :
    (∀ p', r = .further p' → p'.Met s Γ σ) ∧
      ∀ o, r = .done o → ∃ w ∈ vars, σ (.declared w) = .null := by
  have hrest : ∀ d ∈ rest, d.Holds (s.Under Γ σ) := fun d hd =>
    hmet.holds.1 d (by rw [hpend]; exact List.mem_cons_of_mem _ hd)
  have hflip : ∀ {d : Constraint}, d = c ∨ d = c.flip → d.Holds (s.Under Γ σ) := by
    rintro d (rfl | rfl)
    · exact hholds
    · exact Constraint.flip_holds.2 hholds
  cases h with
  | dropped _ _ _ _ _ =>
    refine ⟨fun p' h => ?_, fun o h => by cases h⟩
    cases h
    exact ⟨hmet.agrees, hrest, hmet.holds.2⟩
  | @filed d pre post u hd hus hlhs =>
    refine ⟨fun p' h => ?_, fun o h => by cases h⟩
    cases h
    refine ⟨fun x hx t ht => ?_, hrest, fun x hx e he => ?_⟩
    · obtain ⟨y, hy, hvar, hsol, -⟩ := Unknown.mem_add hus hx
      rw [← hvar]
      exact hmet.agrees y hy t (hsol.trans ht)
    · obtain ⟨y, hy, -, -, hfiled⟩ := Unknown.mem_add hus hx
      rcases hfiled e he with rfl | he
      · exact hflip hd
      · exact hmet.holds.2 y hy e he
  | @barred d w f hd hlhs hnull hrel =>
    refine ⟨(fun p' h => by cases h), fun _ _ => ?_⟩
    have hw := mem_of_filed hc hd hlhs
    refine ⟨w, hw, eq_null_of_below (Γ := Γ) hs hacyc hσ hw ?_⟩
    have hd' := hflip hd
    obtain ⟨⟨lhs, rel, rhs⟩, origin⟩ := d
    subst hlhs hnull
    cases rel with
    | below => exact hd'
    | equal => exact hd'.1
    | above => exact absurd rfl hrel
  | @reduced cs _ _ _ hres =>
    refine ⟨fun p' h => ?_, fun o h => by cases h⟩
    cases h
    refine ⟨hmet.agrees, fun d hd => ?_, hmet.holds.2⟩
    rcases List.mem_append.1 hd with hd | hd
    · exact hrest d hd
    · exact (hres.under hs hacyc hσ hc hholds) d.toClaim (List.mem_map_of_mem hd)
  | refuted _ hres => exact (hres.under hs hacyc hσ hc hholds).elim

/-- A type that mentions no unknown is closed. -/
theorem closed_of_mentions (hp : p.Tidy s k vars μ) {t : Ty} (ht : t.Simple s vars)
    (h : p.mentions t = false) : t.Simple s [] := by
  refine ⟨ht.regular, fun v hv => ?_⟩
  obtain ⟨w, hw, rfl⟩ := ht.known v hv
  have hany : p.mentions t = true := List.any_eq_true.2 ⟨_, hv, hp.isUnknown hw⟩
  rw [h] at hany
  cases hany

/-- Promoting solves unknowns by types they are to equal, and changes nothing else. -/
theorem mem_promote {u : Unknown} (hu : u ∈ p.promote.unknowns) :
    ∃ u₀ ∈ p.unknowns, u.var = u₀.var ∧ (∀ c ∈ u.filed, c ∈ u₀.filed) ∧
      (u.solution = u₀.solution ∨ ∃ c ∈ u₀.equal, p.mentions c.rhs = false ∧ u.solution = some c.rhs) := by
  obtain ⟨u₀, hu₀, rfl⟩ := List.mem_map.1 hu
  refine ⟨u₀, hu₀, (u₀.promote_extends p.mentions).var, ?_⟩
  rcases u₀.promote_cases p.mentions with h | ⟨_, _, c, pre, post, hequal, hc, h⟩
  · rw [h]
    exact ⟨fun _ => id, .inl rfl⟩
  · rw [h]
    refine ⟨fun d hd => ?_, .inr ⟨c, by rw [hequal]; simp, hc, rfl⟩⟩
    simp only [Unknown.filed, hequal, List.mem_append, List.mem_cons] at hd ⊢
    tauto

/-- Promoting leaves a problem simple. -/
theorem promote_simple (hp : p.Tidy s k vars μ) (h : p.Simple s vars) : p.promote.Simple s vars where
  pending := h.pending
  filed u hu c hc := by
    obtain ⟨u₀, hu₀, _, hfiled, _⟩ := mem_promote hu
    exact h.filed u₀ hu₀ c (hfiled c hc)
  solved u hu t ht := by
    obtain ⟨u₀, hu₀, _, _, hsol | ⟨c, hc, hment, hsol⟩⟩ := mem_promote hu
    · exact h.solved u₀ hu₀ t (hsol ▸ ht)
    · rw [hsol, Option.some.injEq] at ht
      have hfiled : c ∈ u₀.filed := List.mem_append_left _ (List.mem_append_right _ hc)
      exact ht ▸ closed_of_mentions hp (h.filed u₀ hu₀ c hfiled) hment

/-- An equality with a closed type is no choice: the solution is what is put in. -/
theorem promote_met (hs : s.Regular k) (hacyc : s.Acyclic) (hσ : Filling s vars σ)
    (hp : p.Tidy s k vars μ) (hsimple : p.Simple s vars) (h : p.Met s Γ σ) :
    p.promote.Met s Γ σ := by
  refine ⟨fun u hu t ht => ?_, h.holds.1, fun u hu c hc => ?_⟩
  · obtain ⟨u₀, hu₀, hvar, _, hsol | ⟨c, hc, hment, hsol⟩⟩ := mem_promote hu
    · rw [hvar]
      exact h.agrees u₀ hu₀ t (hsol ▸ ht)
    · rw [hsol, Option.some.injEq] at ht
      subst ht
      have hfiled : c ∈ u₀.filed := List.mem_append_left _ (List.mem_append_right _ hc)
      have hclosed := closed_of_mentions hp (hsimple.filed u₀ hu₀ c hfiled) hment
      have hholds := h.holds.2 u₀ hu₀ c hfiled
      unfold Claim.Holds at hholds
      rw [(hp.unknowns u₀ hu₀).equal c hc, ((hp.unknowns u₀ hu₀).fits c hfiled).lhs] at hholds
      rw [hvar]
      exact ⟨hclosed.vars_eq_nil, hσ.shape_eq hs hacyc (hp.mem_vars hu₀) hclosed hholds.1 hholds.2⟩
  · obtain ⟨u₀, hu₀, _, hfiled, _⟩ := mem_promote hu
    exact h.holds.2 u₀ hu₀ c (hfiled c hc)

end Problem

namespace Unknown

/-- What handing on does to an unknown, and the constraints that are handed on: nothing if it is
closed; otherwise solutions take the place of unknowns in its constraints, which are handed on if it
is solved. -/
inductive Handed (τ : Subst) (u : Unknown) : Unknown → List Constraint → Prop
  | closed : u.closed = true → Handed τ u u []
  | solved {upper equal lower : List Constraint} : u.closed = false → u.solution.isSome = true →
    List.Forall₂ (Constraint.Becomes τ) u.upper upper →
      List.Forall₂ (Constraint.Becomes τ) u.equal equal →
        List.Forall₂ (Constraint.Becomes τ) u.lower lower →
          Handed τ u { u with upper := [], equal := [], lower := [], closed := true }
            (upper ++ equal ++ lower)
  | waiting {upper equal lower : List Constraint} : u.closed = false → u.solution = none →
    List.Forall₂ (Constraint.Becomes τ) u.upper upper →
      List.Forall₂ (Constraint.Becomes τ) u.equal equal →
        List.Forall₂ (Constraint.Becomes τ) u.lower lower →
          Handed τ u { u with upper, equal, lower } []

/-- Handing on does to an unknown what it is said to do. -/
theorem hand_handed {u : Unknown} {r : Unknown × List Constraint}
    (h : (u.hand τ).Answers m r m') : u.Handed τ r.1 r.2 ∧ m.Builds m' := by
  unfold hand at h
  split at h
  · next hclosed =>
    obtain ⟨rfl, rfl⟩ := answers_pure.1 h
    exact ⟨.closed hclosed, .refl _⟩
  · next hclosed =>
    rw [Bool.not_eq_true] at hclosed
    obtain ⟨upper, m₁, hupper, h⟩ := answers_bind.1 h
    obtain ⟨equal, m₂, hequal, h⟩ := answers_bind.1 h
    obtain ⟨lower, m₃, hlower, h⟩ := answers_bind.1 h
    obtain ⟨hu, hb₁⟩ := Constraint.replaceAll_builds hupper
    obtain ⟨he, hb₂⟩ := Constraint.replaceAll_builds hequal
    obtain ⟨hl, hb₃⟩ := Constraint.replaceAll_builds hlower
    split at h
    · next hsol =>
      obtain ⟨rfl, rfl⟩ := answers_pure.1 h
      exact ⟨.solved hclosed hsol hu he hl, (hb₁.trans hb₂).trans hb₃⟩
    · next hsol =>
      obtain ⟨rfl, rfl⟩ := answers_pure.1 h
      exact ⟨.waiting hclosed (by simpa using hsol) hu he hl, (hb₁.trans hb₂).trans hb₃⟩

/-- What handing on does to all unknowns. -/
inductive HandedAll (τ : Subst) : List Unknown → List Unknown → List Constraint → Prop
  | nil : HandedAll τ [] [] []
  | cons {u u' : Unknown} {us us' : List Unknown} {cs more : List Constraint} :
    u.Handed τ u' cs → HandedAll τ us us' more → HandedAll τ (u :: us) (u' :: us') (cs ++ more)

/-- Handing on does to all unknowns what it is said to do. -/
theorem handAll_handed {us : List Unknown} {r : List Unknown × List Constraint}
    (h : (handAll τ us).Answers m r m') : HandedAll τ us r.1 r.2 ∧ m.Builds m' := by
  induction us generalizing m r m' with
  | nil =>
    obtain ⟨rfl, rfl⟩ := answers_pure.1 h
    exact ⟨.nil, .refl _⟩
  | cons u us ih =>
    obtain ⟨⟨u', cs⟩, m₁, hu, h⟩ := answers_bind.1 h
    obtain ⟨⟨us', more⟩, m₂, hus, h⟩ := answers_bind.1 h
    obtain ⟨rfl, rfl⟩ := answers_pure.1 h
    obtain ⟨hhanded, hb₁⟩ := hand_handed hu
    obtain ⟨hall, hb₂⟩ := ih hus
    exact ⟨.cons hhanded hall, hb₁.trans hb₂⟩

/-- What is handed on comes from the unknowns, one by one. -/
theorem HandedAll.mem {us us' : List Unknown} {cs : List Constraint} (h : HandedAll τ us us' cs) :
    (∀ u' ∈ us', ∃ u ∈ us, ∃ ds, u.Handed τ u' ds) ∧
      ∀ c ∈ cs, ∃ u ∈ us, ∃ u' ds, u.Handed τ u' ds ∧ c ∈ ds := by
  induction h with
  | nil => exact ⟨(fun _ h => by cases h), fun _ h => by cases h⟩
  | @cons u u' us us' cs more hu _ ih =>
    refine ⟨fun x hx => ?_, fun c hc => ?_⟩
    · rcases List.mem_cons.1 hx with rfl | hx
      · exact ⟨u, List.mem_cons_self, cs, hu⟩
      · obtain ⟨y, hy, h⟩ := ih.1 x hx
        exact ⟨y, List.mem_cons_of_mem _ hy, h⟩
    · rcases List.mem_append.1 hc with hc | hc
      · exact ⟨u, List.mem_cons_self, u', cs, hu, hc⟩
      · obtain ⟨y, hy, h⟩ := ih.2 c hc
        exact ⟨y, List.mem_cons_of_mem _ hy, h⟩

namespace Handed

variable {u u' : Unknown} {cs : List Constraint}

/-- Handing on leaves the variable of an unknown. -/
theorem var (h : u.Handed τ u' cs) : u'.var = u.var := by cases h <;> rfl

/-- Handing on leaves the solution of an unknown. -/
theorem solution (h : u.Handed τ u' cs) : u'.solution = u.solution := by cases h <;> rfl

/-- What is handed on or stays filed was filed before, up to solutions in the place of unknowns. -/
theorem filed (h : u.Handed τ u' cs) {c' : Constraint} (hc : c' ∈ cs ∨ c' ∈ u'.filed) :
    c' ∈ u.filed ∨ ∃ c ∈ u.filed, c.Becomes τ c' := by
  have hbuckets : ∀ {upper equal lower : List Constraint},
      List.Forall₂ (Constraint.Becomes τ) u.upper upper →
      List.Forall₂ (Constraint.Becomes τ) u.equal equal →
      List.Forall₂ (Constraint.Becomes τ) u.lower lower → c' ∈ upper ++ equal ++ lower →
        ∃ c ∈ u.filed, c.Becomes τ c' := by
    intro upper equal lower hu he hl hc'
    exact exists_of_forall₂_right (List.rel_append (List.rel_append hu he) hl) hc'
  cases h with
  | closed _ => exact .inl (hc.resolve_left List.not_mem_nil)
  | solved _ _ hu he hl =>
    rcases hc with hc | hc
    · exact .inr (hbuckets hu he hl hc)
    · cases hc
  | waiting _ _ hu he hl => exact .inr (hbuckets hu he hl (hc.resolve_left List.not_mem_nil))

end Handed

end Unknown

namespace Problem

variable {p p' : Problem}

/-- Handing on adds to what is pending, and picks nothing. -/
theorem hand_handed (h : p.hand.Answers m p' m') :
    ∃ cs, p'.pending = p.pending ++ cs ∧ p'.picked = p.picked ∧ Unknown.HandedAll
      (p.solutionsWhere fun u => u.solution.isSome) p.unknowns p'.unknowns cs := by
  obtain ⟨r, m₁, hr, h⟩ := answers_bind.1 h
  obtain ⟨rfl, rfl⟩ := answers_pure.1 h
  exact ⟨r.2, rfl, rfl, (Unknown.handAll_handed hr).1⟩

/-- A filed constraint is on simple types. -/
theorem Simple.of_filed (h : p.Simple s vars) (hp : p.Tidy s k vars μ) {u : Unknown}
    (hu : u ∈ p.unknowns) {c : Constraint} (hc : c ∈ u.filed) :
    c.lhs.Simple s vars ∧ c.rhs.Simple s vars := by
  refine ⟨?_, h.filed u hu c hc⟩
  rw [((hp.unknowns u hu).fits c hc).lhs]
  exact ⟨fun _ => by rw [Ty.Regular]; trivial, fun v hv => ⟨u.var, hp.mem_vars hu, List.mem_singleton.1 hv⟩⟩

/-- Handing on leaves a problem simple, and picks nothing. -/
theorem hand_simple (hp : p.Tidy s k vars μ) (hsimple : p.Simple s vars)
    (h : p.hand.Answers m p' m') : p'.Simple s vars ∧ p'.picked = p.picked := by
  obtain ⟨cs, hpend, hpicked, hall⟩ := hand_handed h
  have hnew : ∀ u ∈ p.unknowns, ∀ u' ds, u.Handed (p.solutionsWhere fun u => u.solution.isSome) u' ds →
      ∀ c, c ∈ ds ∨ c ∈ u'.filed → c.lhs.Simple s vars ∧ c.rhs.Simple s vars := by
    intro u hu u' ds hhanded c hc
    rcases hhanded.filed hc with hc | ⟨d, hd, hbec⟩
    · exact hsimple.of_filed hp hu hc
    · obtain ⟨hl, hr⟩ := hsimple.of_filed hp hu hd
      exact ⟨hl.replaced hbec.lhs.shape (hsimple.solutions _),
        hr.replaced hbec.rhs.shape (hsimple.solutions _)⟩
  refine ⟨⟨fun c hc => ?_, fun u' hu' c hc => ?_, fun u' hu' t ht => ?_⟩, hpicked⟩
  · rw [hpend] at hc
    rcases List.mem_append.1 hc with hc | hc
    · exact hsimple.pending c hc
    · obtain ⟨u, hu, u', ds, hhanded, hc⟩ := hall.mem.2 c hc
      obtain ⟨hl, hr⟩ := hnew u hu u' ds hhanded c (.inl hc)
      exact ⟨hl, .inl hr⟩
  · obtain ⟨u, hu, ds, hhanded⟩ := hall.mem.1 u' hu'
    exact (hnew u hu u' ds hhanded c (.inr hc)).2
  · obtain ⟨u, hu, ds, hhanded⟩ := hall.mem.1 u' hu'
    exact hsimple.solved u hu t (hhanded.solution ▸ ht)

/-- Handing on keeps a problem met: what takes the place of unknowns is what is put in. -/
theorem hand_met (hp : p.Tidy s k vars μ) (hsimple : p.Simple s vars)
    (hmet : p.Met s Γ σ) (h : p.hand.Answers m p' m') : p'.Met s Γ σ := by
  obtain ⟨cs, hpend, _, hall⟩ := hand_handed h
  have hnew : ∀ u ∈ p.unknowns, ∀ u' ds, u.Handed (p.solutionsWhere fun u => u.solution.isSome) u' ds →
      ∀ c, c ∈ ds ∨ c ∈ u'.filed → c.Holds (s.Under Γ σ) := by
    intro u hu u' ds hhanded c hc
    rcases hhanded.filed hc with hc | ⟨d, hd, hbec⟩
    · exact hmet.holds.2 u hu c hc
    · obtain ⟨hl, hr⟩ := hsimple.of_filed hp hu hd
      exact (hbec.under ⟨hl, .inl hr⟩ (hp.agrees hmet.agrees _)).2 (hmet.holds.2 u hu d hd)
  refine ⟨fun u' hu' t ht => ?_, fun c hc => ?_, fun u' hu' c hc => ?_⟩
  · obtain ⟨u, hu, ds, hhanded⟩ := hall.mem.1 u' hu'
    rw [hhanded.var]
    exact hmet.agrees u hu t (hhanded.solution ▸ ht)
  · rw [hpend] at hc
    rcases List.mem_append.1 hc with hc | hc
    · exact hmet.holds.1 c hc
    · obtain ⟨u, hu, u', ds, hhanded, hc⟩ := hall.mem.2 c hc
      exact hnew u hu u' ds hhanded c (.inl hc)
  · obtain ⟨u, hu, ds, hhanded⟩ := hall.mem.1 u' hu'
    exact hnew u hu u' ds hhanded c (.inr hc)

/-- What promoting and handing on keep, settling keeps. -/
theorem settle_induct {P : Problem → Memory → Prop} (hpromote : ∀ p m, P p m → P p.promote m)
    (hhand : ∀ p m p' m', P p m → p.hand.Answers m p' m' → P p' m') {n : Nat} (hP : P p m)
    (h : (settle n p).Answers m p' m') : P p' m' := by
  induction n generalizing p m with
  | zero =>
    obtain ⟨rfl, rfl⟩ := answers_pure.1 h
    exact hP
  | succ n ih =>
    rw [settle] at h
    split at h
    · obtain ⟨p₁, m₁, hp₁, h⟩ := answers_bind.1 h
      exact ih (hhand _ _ _ _ (hpromote _ _ hP) hp₁) h
    · obtain ⟨rfl, rfl⟩ := answers_pure.1 h
      exact hpromote _ _ hP

/-- **Settling by equalities leaves a simple problem**, and picks nothing. -/
theorem settle_simple (hm : m.Faithful s) (hsub : ∀ i, μ.clean i → μ.used i)
    (hp : p.Tidy s k vars μ) (hsimple : p.Simple s vars) {n : Nat}
    (h : (settle n p).Answers m p' m') : p'.Simple s vars ∧ p'.picked = p.picked := by
  have hkept := settle_induct
    (P := fun q m => m.Faithful s ∧ q.Tidy s k vars μ ∧ q.Simple s vars ∧ q.picked = p.picked)
    (fun q m h => ⟨h.1, promote_tidy h.2.1, promote_simple h.2.1 h.2.2.1, h.2.2.2⟩)
    (fun q m q' m' h hhand => by
      obtain ⟨hm, htidy, hsimple, hpicked⟩ := h
      obtain ⟨hst, htidy', _⟩ := hand_follows hm htidy hsub hhand
      obtain ⟨hsimple', hpicked'⟩ := hand_simple htidy hsimple hhand
      exact ⟨hst.faithful, htidy', hsimple', hpicked'.trans hpicked⟩)
    ⟨hm, hp, hsimple, rfl⟩ h
  exact hkept.2.2

/-- **Settling by equalities keeps a problem met.** -/
theorem settle_met (hs : s.Regular k) (hacyc : s.Acyclic) (hσ : Filling s vars σ)
    (hm : m.Faithful s) (hsub : ∀ i, μ.clean i → μ.used i) (hp : p.Tidy s k vars μ)
    (hsimple : p.Simple s vars) (hmet : p.Met s Γ σ) {n : Nat} (h : (settle n p).Answers m p' m') :
    p'.Met s Γ σ := by
  have hkept := settle_induct
    (P := fun q m => m.Faithful s ∧ q.Tidy s k vars μ ∧ q.Simple s vars ∧ q.Met s Γ σ)
    (fun q m h => ⟨h.1, promote_tidy h.2.1, promote_simple h.2.1 h.2.2.1,
      promote_met hs hacyc hσ h.2.1 h.2.2.1 h.2.2.2⟩)
    (fun q m q' m' h hhand => by
      obtain ⟨hm, htidy, hsimple, hmet⟩ := h
      obtain ⟨hst, htidy', _⟩ := hand_follows hm htidy hsub hhand
      exact ⟨hst.faithful, htidy', (hand_simple htidy hsimple hhand).1,
        hand_met htidy hsimple hmet hhand⟩)
    ⟨hm, hp, hsimple, hmet⟩ h
  exact hkept.2.2.2

end Problem

end Inference

end Generics
