/-
# Where applied declarations meet

Subtyping and inference treat a pair of applied declarations alike up to the point where the
arguments are compared: the left side must inherit from the right side; a raw right side asks no
more; a raw left side does not do; otherwise the left side is captured and seen as the
declaration of the right side. `Setting.meeting` is this common part, and
`Setting.nominalBelowBy_eq` says that subtyping goes through it.

`Setting.meeting_answers` says what it answers in terms of derivations: the left side is below the
right side if they meet always, never if they meet never, and otherwise exactly if the demands on
the arguments found are met in the captured scope.
-/

import Generics.Proofs.Captures
import Mathlib.Data.List.Perm.Subperm

namespace Generics
namespace Setting

open Query

variable {s : Setting} {k : Fragment} {m m' : Memory} {ancestor : String}

/-- The types of arguments are those among them, and asking for them leaves the memory. -/
theorem argTypes_answers {n : Nominal} {as : List Arg} {ts : List Ty}
    (h : (argTypes n as).Answers m ts m') : ts = as.filterMap Arg.type? ∧ m' = m := by
  induction as generalizing ts m' with
  | nil =>
    obtain ⟨rfl, rfl⟩ := answers_pure.1 h
    exact ⟨rfl, rfl⟩
  | cons a as ih =>
    cases a with
    | wild u l => exact absurd h answers_throw
    | type t =>
      obtain ⟨ts', m₁, hts, h⟩ := answers_bind.1 h
      obtain ⟨rfl, rfl⟩ := answers_pure.1 h
      obtain ⟨rfl, rfl⟩ := ih hts
      exact ⟨rfl, rfl⟩

/-- Arguments without wildcards have types. -/
theorem argTypes_total (n : Nominal) {as : List Arg} (h : ∀ a ∈ as, a.isWild = false) (m : Memory) :
    (argTypes n as).Answers m (as.filterMap Arg.type?) m := by
  induction as with
  | nil => exact answers_pure.2 ⟨rfl, rfl⟩
  | cons a as ih =>
    cases a with
    | wild u l => cases h _ List.mem_cons_self
    | type t =>
      exact answers_bind.2 ⟨_, m, ih fun b hb => h b (List.mem_cons_of_mem _ hb),
        answers_pure.2 ⟨rfl, rfl⟩⟩

/-- The parameters of a known declaration are those of its lineage, and the memory stays. -/
theorem params_answers {decl : String} {l : Lineage} (hl : s.lineageOf decl = some l)
    (hm : m.Faithful s) {ps : List TypeVar} (h : (s.params decl).Answers m ps m') :
    ps = l.params ∧ m.Stays s m' := by
  obtain ⟨hsettles, hst⟩ := (params_steady s decl).stays hm h
  have := hsettles.unique (params_settles hl)
  injection this with this
  exact ⟨this, hst⟩

/-- The assignment pairs the parameters with the types of the arguments, and the memory stays. -/
theorem assignment_answers {n : Nominal} {l : Lineage} (hl : s.lineageOf n.decl = some l)
    (hm : m.Faithful s) {σ : Subst} (h : (s.assignment n).Answers m σ m') :
    σ = Subst.zip (s.paramsOf n.decl) (n.args.filterMap Arg.type?) ∧ m.Stays s m' := by
  obtain ⟨ps, m₁, hps, h⟩ := answers_bind.1 h
  obtain ⟨rfl, hst⟩ := params_answers hl hm hps
  split at h
  · exact absurd h answers_throw
  · obtain ⟨ts, m₂, hts, h⟩ := answers_bind.1 h
    obtain ⟨rfl, rfl⟩ := answers_pure.1 h
    obtain ⟨rfl, rfl⟩ := argTypes_answers hts
    exact ⟨by rw [paramsOf_eq hl], hst⟩

/-- As many types as parameters can be assigned to them. -/
theorem assignment_total {n : Nominal} {l : Lineage} (hl : s.lineageOf n.decl = some l)
    (hlen : n.args.length = l.params.length) (hwild : ∀ a ∈ n.args, a.isWild = false)
    (hm : m.Faithful s) : ∃ σ m', (s.assignment n).Answers m σ m' := by
  obtain ⟨m₁, hps, hst⟩ := (params_settles hl).stays hm
  refine ⟨Subst.zip l.params (n.args.filterMap Arg.type?), m₁, answers_bind.2 ⟨_, m₁, hps, ?_⟩⟩
  rw [if_neg (by simp [hlen])]
  exact answers_bind.2 ⟨_, m₁, argTypes_total n hwild m₁, answers_pure.2 ⟨rfl, rfl⟩⟩

/-- Whether a declaration is raw settles: it has parameters, but no arguments. -/
theorem isRaw_settles {n : Nominal} {l : Lineage} (hl : s.lineageOf n.decl = some l) :
    Settles s (s.isRaw n) (.ok (n.args.isEmpty && !l.params.isEmpty)) := by
  unfold isRaw
  cases n.args.isEmpty with
  | true => exact (params_settles hl).bind (.pure _)
  | false => exact .pure _

/-- A declaration is found to be raw exactly if it is, and the memory stays. -/
theorem isRaw_answers {n : Nominal} {l : Lineage} (hl : s.lineageOf n.decl = some l)
    (hm : m.Faithful s) {b : Bool} (h : (s.isRaw n).Answers m b m') :
    (b = true ↔ n.args = [] ∧ s.paramsOf n.decl ≠ []) ∧ m.Stays s m' := by
  have hset := isRaw_settles hl
  obtain ⟨hsettles, hst⟩ := Steady.stays ⟨_, hset⟩ hm h
  have := hsettles.unique hset
  injection this with this
  refine ⟨?_, hst⟩
  rw [this, paramsOf_eq hl]
  simp [List.isEmpty_iff]

/-- The arguments of a supertype that is reached without arguments to put in. -/
theorem inherited_nil {decl : String} {parent : Nominal} (h : s.paramsOf decl = []) :
    s.inherited decl [] parent = parent.args.map Arg.shape := by
  rw [inherited, if_neg (by simp [h]), h]
  rfl

/-- A declaration with arguments hands the supertype on with these in the place of the parameters. -/
theorem inherited_cons {decl : String} {args : List Arg} (hargs : args ≠ []) (parent : Nominal) :
    s.inherited decl (args.map Arg.shape) parent = parent.args.map
      (Arg.rebuild (Subst.zip (s.paramsOf decl) (args.filterMap Arg.type?)).image) := by
  rw [inherited, if_neg (by simp [hargs]), types_shape, image_zip_shape]

/-- One step on the way up to an ancestor. -/
def climbStep (s : Setting) (ancestor : String) (n : Nominal) : Query (Option Nominal) := do
  match ← s.leadsTo? n.decl ancestor with
  | none => pure none
  | some parent =>
    if n.args.isEmpty then
      if ← s.isRaw n then pure (some (.raw parent.decl)) else pure (some parent)
    else return some (← replaceIn (← s.assignment n) parent)

/-- Following the way up is taking a step and following the rest. -/
theorem climb_succ {steps : Nat} {n : Nominal} (hn : n.decl ≠ ancestor) :
    s.climb ancestor (steps + 1) n = s.climbStep ancestor n >>= fun r =>
      match r with
      | none => pure none
      | some n' => s.climb ancestor steps n' := by
  rw [climb, if_neg hn, climbStep, bind_assoc]
  refine congrArg _ (funext fun r => ?_)
  cases r with
  | none => rw [pure_bind]
  | some parent =>
    cases n.args.isEmpty with
    | true =>
      simp only [if_true, bind_assoc]
      refine congrArg _ (funext fun b => ?_)
      cases b <;> simp
    | false => simp

/-- What an applied declaration becomes on the way up to a direct supertype: raw if it is raw, the
supertype as it is declared if there are no parameters, and else the supertype with the arguments in the
place of the parameters. -/
inductive Becomes (s : Setting) (parent n : Nominal) : Nominal → Prop
  | raw (hargs : n.args = []) (hparams : s.paramsOf n.decl ≠ []) : Becomes s parent n (.raw parent.decl)
  | plain (hargs : n.args = []) (hparams : s.paramsOf n.decl = []) : Becomes s parent n parent
  | applied {n' : Nominal} (site : Site) (hargs : n.args ≠ []) (hdecl : n'.decl = parent.decl)
      (hsubst : n'.toTy =
        parent.toTy.subst (Subst.zip (s.paramsOf n.decl) (n.args.filterMap Arg.type?)) site) :
      Becomes s parent n n'

namespace Becomes

variable {parent n n' : Nominal}

/-- On the way up a declaration becomes its supertype. -/
theorem decl (h : s.Becomes parent n n') : n'.decl = parent.decl := by
  cases h with
  | raw => rfl
  | plain => rfl
  | applied _ _ hdecl => exact hdecl

/-- The arguments are the inherited ones. -/
theorem args (h : s.Becomes parent n n') :
    n'.args.map Arg.shape = s.inherited n.decl (n.args.map Arg.shape) parent := by
  cases h with
  | raw hargs hparams =>
    rw [hargs, inherited, if_pos ⟨List.map_nil, hparams⟩]
    rfl
  | plain hargs hparams => rw [hargs, List.map_nil, inherited_nil hparams]
  | applied site hargs _ hsubst =>
    have hshape := Ty.shape_subst (Subst.zip (s.paramsOf n.decl) (n.args.filterMap Arg.type?)) site
      parent.toTy
    rw [← hsubst, Nominal.toTy, Nominal.toTy, Ty.shape_nominal, Ty.rebuild_nominal] at hshape
    injection hshape with _ _ hshape
    rw [inherited_cons hargs, hshape]

section Leading

variable (hlead : Settles s (s.leadsTo? n.decl ancestor) (.ok (some parent)))
include hlead

/-- What a declaration becomes on the way up fits. -/
theorem fits (hs : s.ParentsFit) (h : s.Becomes parent n n') : s.Fits n'.decl n'.args := by
  rw [← fits_shape, h.args, h.decl]
  exact Fits.inherited hs hlead

/-- What is found further up is found from here. -/
theorem seenAs (h : s.Becomes parent n n') (hn : n.decl ≠ ancestor) {cs : List Arg} :
    s.SeenAs ancestor n.decl (n.args.map Arg.shape) cs ↔
      s.SeenAs ancestor n'.decl (n'.args.map Arg.shape) cs := by
  rw [h.decl, h.args]
  constructor
  · intro hseen
    cases hseen with
    | here => exact absurd rfl hn
    | up _ hlead' hseen =>
      have := hlead.unique hlead'
      injection this with this
      injection this with this
      subst this
      exact hseen
  · exact .up hn hlead

/-- Regular arguments lead to regular arguments. -/
theorem regular (hs : s.ParentsRegular k) (h : s.Becomes parent n n')
    (hreg : ∀ a ∈ n.args, a.Regular s k) : ∀ a ∈ n'.args, a.Regular s k := by
  obtain ⟨l, hl, hmem, -, hpreg, -⟩ := hs.of_leadsTo hlead
  cases h with
  | raw => simp [Nominal.raw]
  | plain => exact Arg.regularAll_iff.1 hpreg
  | applied site _ _ hsubst =>
    have hreg' := (hs _ l hl parent hmem).1.subst (Subst.zip (s.paramsOf n.decl)
      (n.args.filterMap Arg.type?)) site fun v _ u hu => by
        have := hreg _ (mem_types (Subst.mem_of_lookup_zip hu))
        rwa [Arg.Regular] at this
    rw [← hsubst, Nominal.toTy, Ty.Regular] at hreg'
    exact Arg.regularAll_iff.1 hreg'.2

end Leading

end Becomes

/-- **A step on the way up goes to what is seen at the direct supertype that leads on.** -/
theorem climbStep_answers {n : Nominal} {r : Option Nominal} (hm : m.Faithful s)
    (h : (s.climbStep ancestor n).Answers m r m') :
    m.Stays s m' ∧ (r = none → Settles s (s.leadsTo? n.decl ancestor) (.ok none)) ∧
      ∀ n', r = some n' → ∃ parent,
        Settles s (s.leadsTo? n.decl ancestor) (.ok (some parent)) ∧ s.Becomes parent n n' := by
  obtain ⟨r₀, m₁, hanswer, h⟩ := answers_bind.1 h
  obtain ⟨hlead, hst⟩ := (leadsTo?_steady s n.decl ancestor).stays hm hanswer
  cases r₀ with
  | none =>
    obtain ⟨rfl, rfl⟩ := answers_pure.1 h
    exact ⟨hst, fun _ => hlead, by simp⟩
  | some parent =>
    obtain ⟨⟨l, hl, -⟩, -⟩ := leadsTo?_sound hlead
    simp only at h
    split at h
    · next hempty =>
      have hnil := List.isEmpty_iff.1 hempty
      obtain ⟨b, m₂, hraw, h⟩ := answers_bind.1 h
      obtain ⟨hb, hst₂⟩ := isRaw_answers hl hst.faithful hraw
      cases b with
      | true =>
        obtain ⟨rfl, rfl⟩ := answers_pure.1 h
        refine ⟨hst.trans hst₂, by simp, fun n' hn' => ⟨parent, hlead, ?_⟩⟩
        cases hn'
        exact .raw hnil (hb.1 rfl).2
      | false =>
        obtain ⟨rfl, rfl⟩ := answers_pure.1 h
        refine ⟨hst.trans hst₂, by simp, fun n' hn' => ⟨parent, hlead, ?_⟩⟩
        cases hn'
        exact .plain hnil (Classical.byContradiction fun hps =>
          Bool.false_ne_true (hb.2 ⟨hnil, hps⟩))
    · next hempty =>
      obtain ⟨σ, m₂, hσ, h⟩ := answers_bind.1 h
      obtain ⟨rfl, hst₂⟩ := assignment_answers hl hst.faithful hσ
      obtain ⟨n₁, m₃, hn₁, h⟩ := answers_bind.1 h
      obtain ⟨⟨site, hsubst⟩, hdecl, hbuilds⟩ := replaceIn_subst hn₁
      obtain ⟨rfl, rfl⟩ := answers_pure.1 h
      refine ⟨(hst.trans hst₂).trans (hbuilds.stays hst₂.faithful), by simp, fun n' hn' =>
        ⟨parent, hlead, ?_⟩⟩
      cases hn'
      exact .applied site (fun h0 => hempty (List.isEmpty_iff.2 h0)) hdecl hsubst

/-- A step on the way up is answered. -/
theorem climbStep_total (hk : s.ParentsKnown) (ancestor : String) {n : Nominal} (hm : m.Faithful s)
    (hfits : s.Fits n.decl n.args) : ∃ r m', (s.climbStep ancestor n).Answers m r m' := by
  obtain ⟨l, hl, hlen⟩ := hfits.1
  obtain ⟨r₀, hlead⟩ := leadsTo?_answerable hk ancestor (by rw [hl]; rfl)
  obtain ⟨m₁, ha, hst⟩ := hlead.stays hm
  rw [climbStep]
  cases r₀ with
  | none => exact ⟨none, m₁, answers_bind.2 ⟨none, m₁, ha, answers_pure.2 ⟨rfl, rfl⟩⟩⟩
  | some parent =>
    cases hempty : n.args.isEmpty with
    | true =>
      obtain ⟨m₂, hraw, _⟩ := (isRaw_settles hl).stays hst.faithful
      cases hb : n.args.isEmpty && !l.params.isEmpty with
      | true =>
        rw [hb] at hraw
        exact ⟨_, m₂, answers_bind.2 ⟨_, m₁, ha, answers_bind.2 ⟨_, m₂, hraw,
          answers_pure.2 ⟨rfl, rfl⟩⟩⟩⟩
      | false =>
        rw [hb] at hraw
        exact ⟨_, m₂, answers_bind.2 ⟨_, m₁, ha, answers_bind.2 ⟨_, m₂, hraw,
          answers_pure.2 ⟨rfl, rfl⟩⟩⟩⟩
    | false =>
      have hlen' : n.args.length = l.params.length := by
        rcases hlen with h0 | h0
        · rw [List.length_eq_zero_iff.1 h0] at hempty; cases hempty
        · exact h0
      obtain ⟨σ, m₂, hσ⟩ := assignment_total hl hlen' hfits.2 hst.faithful
      obtain ⟨n₁, m₃, hn₁⟩ := replaceIn_total σ parent m₂
      exact ⟨_, m₃, answers_bind.2 ⟨_, m₁, ha, answers_bind.2 ⟨σ, m₂, hσ,
        answers_bind.2 ⟨n₁, m₃, hn₁, answers_pure.2 ⟨rfl, rfl⟩⟩⟩⟩⟩

/-- Climbing ends at the ancestor. -/
theorem climb_here {steps : Nat} {n : Nominal} (hn : n.decl = ancestor) :
    s.climb ancestor steps n = pure (some n) := by
  cases steps <;> rw [climb, if_pos hn]

/-- **Following the way up answers what the declaration looks like seen as the ancestor**, and what is
passed on at each step is passed on all the way. -/
theorem climb_keeps {P : Nominal → Prop} (hP : ∀ {n parent n'}, P n → n.decl ≠ ancestor →
      Settles s (s.leadsTo? n.decl ancestor) (.ok (some parent)) → s.Becomes parent n n' → P n')
    {steps : Nat} {n : Nominal} {r : Option Nominal} (hm : m.Faithful s) (hn : P n)
    (h : (s.climb ancestor steps n).Answers m r m') :
    m.Stays s m' ∧
      (r = none → ∀ cs, ¬ s.SeenAs ancestor n.decl (n.args.map Arg.shape) cs) ∧
      ∀ n', r = some n' → n'.decl = ancestor ∧ P n' ∧
        s.SeenAs ancestor n.decl (n.args.map Arg.shape) (n'.args.map Arg.shape) := by
  induction steps generalizing n m with
  | zero =>
    by_cases hdecl : n.decl = ancestor
    · rw [climb_here hdecl] at h
      obtain ⟨rfl, rfl⟩ := answers_pure.1 h
      refine ⟨.refl hm, by simp, fun n' hn' => ?_⟩
      cases hn'
      exact ⟨hdecl, hn, hdecl ▸ .here _⟩
    · rw [climb, if_neg hdecl] at h
      exact absurd h answers_throw
  | succ steps ih =>
    by_cases hdecl : n.decl = ancestor
    · rw [climb_here hdecl] at h
      obtain ⟨rfl, rfl⟩ := answers_pure.1 h
      refine ⟨.refl hm, by simp, fun n' hn' => ?_⟩
      cases hn'
      exact ⟨hdecl, hn, hdecl ▸ .here _⟩
    · rw [climb_succ hdecl] at h
      obtain ⟨r₀, m₁, hstep, h⟩ := answers_bind.1 h
      obtain ⟨hst, hnone, hsome⟩ := climbStep_answers hm hstep
      cases r₀ with
      | none =>
        obtain ⟨rfl, rfl⟩ := answers_pure.1 h
        refine ⟨hst, fun _ cs hseen => ?_, by simp⟩
        cases hseen with
        | here => exact hdecl rfl
        | up _ hlead' _ =>
          have := (hnone rfl).unique hlead'
          injection this with this
          cases this
      | some n₁ =>
        obtain ⟨parent, hlead, hup⟩ := hsome n₁ rfl
        obtain ⟨hst', hnone', hsome'⟩ := ih hst.faithful (hP hn hdecl hlead hup) h
        refine ⟨hst.trans hst', fun hr cs hseen => ?_, fun n' hn' => ?_⟩
        · exact hnone' hr cs ((hup.seenAs hlead hdecl).1 hseen)
        · obtain ⟨hdecl', hn₁, hseen⟩ := hsome' n' hn'
          exact ⟨hdecl', hn₁, (hup.seenAs hlead hdecl).2 hseen⟩

/-- Climbing finds what the declaration is seen as, if it is at all. -/
theorem climb_answers (hs : s.ParentsRegular k) {steps : Nat} {n : Nominal} {r : Option Nominal}
    (hm : m.Faithful s) (hreg : ∀ a ∈ n.args, a.Regular s k)
    (h : (s.climb ancestor steps n).Answers m r m') :
    m.Stays s m' ∧
      (r = none → ∀ cs, ¬ s.SeenAs ancestor n.decl (n.args.map Arg.shape) cs) ∧
      ∀ n', r = some n' →
        s.SeenAs ancestor n.decl (n.args.map Arg.shape) (n'.args.map Arg.shape) ∧
          ∀ a ∈ n'.args, a.Regular s k := by
  obtain ⟨hst, hnone, hsome⟩ := climb_keeps (P := fun n => ∀ a ∈ n.args, a.Regular s k)
    (fun hn _ hlead hup => hup.regular hlead hs hn) hm hreg h
  exact ⟨hst, hnone, fun n' hn' => ⟨(hsome n' hn').2.2, (hsome n' hn').2.1⟩⟩

/-- Where there is a way up to the ancestor, it is followed, or for too few steps. -/
theorem climb_some (hk : s.ParentsKnown) {steps : Nat} {n : Nominal} {r : Option Nominal}
    (hm : m.Faithful s) (hup : Relation.ReflTransGen s.Parent n.decl ancestor)
    (h : (s.climb ancestor steps n).Answers m r m') : ∃ n', r = some n' := by
  induction steps generalizing n m with
  | zero =>
    by_cases hdecl : n.decl = ancestor
    · rw [climb_here hdecl] at h
      exact ⟨n, (answers_pure.1 h).1⟩
    · rw [climb, if_neg hdecl] at h
      exact absurd h answers_throw
  | succ steps ih =>
    by_cases hdecl : n.decl = ancestor
    · rw [climb_here hdecl] at h
      exact ⟨n, (answers_pure.1 h).1⟩
    · rw [climb_succ hdecl] at h
      obtain ⟨r₀, m₁, hstep, h⟩ := answers_bind.1 h
      obtain ⟨hst, hnone, hsome⟩ := climbStep_answers hm hstep
      cases r₀ with
      | none =>
        obtain ⟨parent, hlead⟩ := leadsTo?_complete hk
          ((Relation.reflTransGen_iff_eq_or_transGen.1 hup).resolve_left (Ne.symm hdecl))
        have := (hnone rfl).unique hlead
        injection this with this
        cases this
      | some n₁ =>
        obtain ⟨parent, hlead, hup⟩ := hsome n₁ rfl
        exact ih hst.faithful (hup.decl ▸ (leadsTo?_sound hlead).2) h

/-- Following the way up for some number of steps answers, or there are more steps to go. -/
theorem climb_goes_on (hs : s.ParentsFit) (steps : Nat) {n : Nominal} (hm : m.Faithful s)
    (hfits : s.Fits n.decl n.args) : (∃ r m', (s.climb ancestor steps n).Answers m r m') ∨
      ∃ m', (s.climb ancestor steps n).outcome m = (.error .exhausted, m') := by
  induction steps generalizing n m with
  | zero =>
    rw [climb]
    split
    · exact .inl ⟨_, m, answers_pure.2 ⟨rfl, rfl⟩⟩
    · exact .inr ⟨m, rfl⟩
  | succ steps ih =>
    by_cases hdecl : n.decl = ancestor
    · rw [climb_here hdecl]
      exact .inl ⟨_, m, answers_pure.2 ⟨rfl, rfl⟩⟩
    · rw [climb_succ hdecl]
      obtain ⟨r₀, m₁, hstep⟩ := climbStep_total hs.known ancestor hm hfits
      obtain ⟨hst, -, hsome⟩ := climbStep_answers hm hstep
      cases r₀ with
      | none => exact .inl ⟨none, m₁, answers_bind.2 ⟨none, m₁, hstep, answers_pure.2 ⟨rfl, rfl⟩⟩⟩
      | some n₁ =>
        obtain ⟨parent, hlead, hbecomes⟩ := hsome n₁ rfl
        refine (ih hst.faithful (hbecomes.fits hlead hs)).imp (fun ⟨r, m', hr⟩ => ?_) fun ⟨m', hr⟩ => ?_
        · exact ⟨r, m', answers_bind.2 ⟨some n₁, m₁, hstep, hr⟩⟩
        · refine ⟨m', ?_⟩
          rw [outcome_bind, show (s.climbStep ancestor n).outcome m = (.ok (some n₁), m₁) from hstep]
          exact hr

/-- A declaration that has arguments can be entered. -/
theorem Fits.mem_enterable {n : Nominal} (h : s.Fits n.decl n.args) : n.decl ∈ s.enterable := by
  obtain ⟨l, hl, _⟩ := h.1
  exact Setting.mem_enterable (by rw [hl]; rfl)

/-- Where the way up meets no declaration twice, the declarations passed on it are told apart, so there
are no more of them than there are declarations. What is passed on at each step must fit. -/
theorem climb_total_of_passed (hk : s.ParentsKnown) {P : Nominal → Prop}
    (hfits : ∀ {n}, P n → s.Fits n.decl n.args) (hP : ∀ {n parent n'}, P n → n.decl ≠ ancestor →
      Settles s (s.leadsTo? n.decl ancestor) (.ok (some parent)) → s.Becomes parent n n' → P n')
    {steps : Nat} {n : Nominal} {passed : List String} (hm : m.Faithful s) (hn : P n)
    (hway : ∀ d, Relation.ReflTransGen (s.Heads ancestor) n.decl d →
      ¬ Relation.TransGen (s.Heads ancestor) d d)
    (hnodup : passed.Nodup)
    (hpassed : ∀ d ∈ passed, d ∈ s.enterable ∧ Relation.TransGen (s.Heads ancestor) d n.decl)
    (hsteps : s.enterable.length ≤ passed.length + steps) :
    ∃ r m', (s.climb ancestor steps n).Answers m r m' := by
  have henter := (hfits hn).mem_enterable
  induction steps generalizing n m passed with
  | zero =>
    have hnew : (n.decl :: passed).Nodup :=
      List.nodup_cons.2 ⟨fun hin => hway n.decl .refl (hpassed _ hin).2, hnodup⟩
    have hsub : n.decl :: passed ⊆ s.enterable :=
      List.cons_subset.2 ⟨henter, fun d hd => (hpassed d hd).1⟩
    have := (List.subperm_of_subset hnew hsub).length_le
    simp only [List.length_cons] at this
    omega
  | succ steps ih =>
    by_cases hdecl : n.decl = ancestor
    · rw [climb_here hdecl]
      exact ⟨_, m, answers_pure.2 ⟨rfl, rfl⟩⟩
    · rw [climb_succ hdecl]
      obtain ⟨r₀, m₁, hstep⟩ := climbStep_total hk ancestor hm (hfits hn)
      obtain ⟨hst, -, hsome⟩ := climbStep_answers hm hstep
      cases r₀ with
      | none => exact ⟨none, m₁, answers_bind.2 ⟨none, m₁, hstep, answers_pure.2 ⟨rfl, rfl⟩⟩⟩
      | some n₁ =>
        obtain ⟨parent, hlead, hbecomes⟩ := hsome n₁ rfl
        have hheads : s.Heads ancestor n.decl n₁.decl :=
          hbecomes.decl ▸ heads_of_leadsTo? hk hdecl hlead
        have hn₁ := hP hn hdecl hlead hbecomes
        obtain ⟨r, m', hr⟩ := ih hst.faithful hn₁ (fun d hd => hway d (.head hheads hd))
          (List.nodup_cons.2 ⟨fun hin => hway n.decl .refl (hpassed _ hin).2, hnodup⟩)
          (List.forall_mem_cons.2 ⟨⟨henter, .single hheads⟩, fun d hd =>
            ⟨(hpassed d hd).1, (hpassed d hd).2.tail hheads⟩⟩)
          (by simp only [List.length_cons]; omega) (hfits hn₁).mem_enterable
        exact ⟨r, m', answers_bind.2 ⟨some n₁, m₁, hstep, hr⟩⟩

/-- All declarations and the top one can be entered. -/
theorem enterable_length (s : Setting) : s.enterable.length = s.catalog.decls.length + 1 := by
  simp [enterable]

/-- **Where the way up meets no declaration twice, it comes to an end**, if what is passed on at each
step fits. -/
theorem climb_total_keeping (hk : s.ParentsKnown) {P : Nominal → Prop}
    (hfits : ∀ {n}, P n → s.Fits n.decl n.args) (hP : ∀ {n parent n'}, P n → n.decl ≠ ancestor →
      Settles s (s.leadsTo? n.decl ancestor) (.ok (some parent)) → s.Becomes parent n n' → P n')
    {n : Nominal} (hm : m.Faithful s) (hn : P n)
    (hway : ∀ d, Relation.ReflTransGen (s.Heads ancestor) n.decl d →
      ¬ Relation.TransGen (s.Heads ancestor) d d) :
    ∃ r m', (s.climb ancestor (s.catalog.decls.length + 1) n).Answers m r m' :=
  climb_total_of_passed hk hfits hP hm hn hway .nil (by simp) (by simp [enterable_length])

/-- Climbing is answered where the way up does not come back. -/
theorem climb_total (hs : s.ParentsFit) (ancestor : String) {n : Nominal} (hm : m.Faithful s)
    (hfits : s.Fits n.decl n.args)
    (hway : ∀ d, Relation.ReflTransGen (s.Heads ancestor) n.decl d →
      ¬ Relation.TransGen (s.Heads ancestor) d d) :
    ∃ r m', (s.climb ancestor (s.catalog.decls.length + 1) n).Answers m r m' :=
  climb_total_keeping (P := fun n => s.Fits n.decl n.args) hs.known id
    (fun _ _ hlead hbecomes => hbecomes.fits hlead hs) hm hfits hway

/-- Where inheritance has no cycle, no way up meets a declaration twice. -/
theorem Acyclic.way (hacyc : s.Acyclic) (ancestor d : String) :
    ¬ Relation.TransGen (s.Heads ancestor) d d :=
  fun hloop => hacyc d (hloop.lift id fun _ _ => Heads.parent)

/-! ### Meetings -/

/-- What is known of two applied declarations before their arguments are compared. -/
inductive Meeting
  /-- The first one is not below the second one. -/
  | never
  /-- The first one is below the second one. -/
  | always
  /-- The first one, seen as the declaration of the second one, has these arguments. -/
  | found (args : List Arg)

/-- How an applied declaration meets another one. -/
def meeting (s : Setting) (a b : Nominal) : Query Meeting := do
  if ← s.inherits a.decl b.decl then
    if b.args.isEmpty then pure .always
    else if ← s.isRaw a then pure .never
    else match ← s.supertypeAs a b.decl with
      | none => pure .never
      | some n => if n.args.length = b.args.length then pure (.found n.args) else pure .never
  else pure .never

/-- Subtyping of applied declarations goes through their meeting. -/
theorem nominalBelowBy_eq (s : Setting) (sub : Ty → Ty → Query Bool) (a b : Nominal) :
    s.nominalBelowBy sub a b = s.meeting a b >>= fun
      | .never => pure false
      | .always => pure true
      | .found args => containsAllBy sub b.args args := by
  rw [nominalBelowBy, meeting, bind_assoc]
  refine congrArg _ (funext fun inherits => ?_)
  cases inherits with
  | false => simp
  | true =>
    cases b.args.isEmpty with
    | true => simp
    | false =>
      simp only [if_true, Bool.false_eq_true, if_false, bind_assoc]
      refine congrArg _ (funext fun raw => ?_)
      cases raw with
      | true => simp
      | false =>
        simp only [Bool.false_eq_true, if_false, bind_assoc]
        refine congrArg _ (funext fun r => ?_)
        cases r with
        | none => simp
        | some n => by_cases h : n.args.length = b.args.length <;> simp [h]

/-- Two applied declarations meet: the first one, seen as the declaration of the second one, has
the arguments `cs`, where the memory has captured the first one. -/
structure Meets (s : Setting) (k : Fragment) (m : Memory) (a b : Nominal) (cs : List Arg)
    (m' : Memory) : Prop where
  faithful : m'.Faithful s
  scope : m'.scope = m.scope.capture s a.decl (a.args.map Arg.shape)
  tame : m.Tame s k → m'.Tame s k
  inherits : Settles s (s.inherits a.decl b.decl) (.ok true)
  asked : b.args ≠ []
  raw : a.args = [] → s.paramsOf a.decl = []
  seen : s.SeenAs b.decl a.decl (captureArgs m.scope.last (a.args.map Arg.shape)) (cs.map Arg.shape)
  length : cs.length = b.args.length
  regular : ∀ c ∈ cs, c.Regular s k

/-- Meeting makes the memory grow. -/
theorem Meets.grows {a b : Nominal} {cs : List Arg} (h : s.Meets k m a b cs m') : m.Grows s k m' :=
  ⟨h.faithful, by rw [h.scope]; exact Scope.le_capture .., h.tame⟩

/-- No argument found is a wildcard. -/
theorem Meets.isWild (hs : s.Regular k) {a b : Nominal} {cs : List Arg} {l : Lineage}
    (h : s.Meets k m a b cs m') (ha : s.Takes k a.decl l (a.args.map Arg.shape)) :
    ∀ c ∈ cs, c.isWild = false := by
  intro c hc
  have hfits := h.seen.fits hs.parentsFit (fits_captureArgs ha m.scope.last)
  rw [← isWild_rebuild .var c]
  exact hfits.2 _ (List.mem_map_of_mem hc)

/-- **Applied declarations that meet are below each other if the demands on the arguments are
met.** -/
theorem Meets.below_iff {a b : Nominal} {cs : List Arg} (h : s.Meets k m a b cs m') :
    Below s m.scope a.toTy.shape b.toTy.shape ↔
      ∀ x ∈ Arg.demandsAll (cs.map Arg.shape) (b.args.map Arg.shape),
        Below s m'.scope x.1 x.2 := by
  rw [Nominal.toTy, Nominal.toTy, Ty.shape_nominal, Ty.shape_nominal,
    Below.nominal_cons (by simpa using h.asked), h.scope]
  constructor
  · rintro ⟨_, _, cs', hseen, _, hdem⟩
    rw [h.seen.unique hseen]
    exact hdem
  · intro hdem
    exact ⟨h.inherits, by simpa using h.raw, _, h.seen, by simpa using h.length, hdem⟩

/-- An applied declaration can be below another one, as far as the declarations and the numbers of
arguments go. -/
def CanMeet (s : Setting) (a b : Nominal) : Prop :=
  Settles s (s.inherits a.decl b.decl) (.ok true) ∧
    (b.args ≠ [] → (a.args = [] → s.paramsOf a.decl = []) ∧
      ∃ as cs, as.length = a.args.length ∧ s.SeenAs b.decl a.decl as cs ∧
        cs.length = b.args.length)

/-- What is below by a derivation can be below. -/
theorem Below.canMeet {Γ : Scope} {a b : Nominal} {f : Var → Ty}
    (h : Below s Γ (a.toTy.rebuild f) (b.toTy.rebuild f)) : s.CanMeet a b := by
  rw [Nominal.toTy, Nominal.toTy, Ty.rebuild_nominal, Ty.rebuild_nominal] at h
  by_cases hargs : b.args = []
  · rw [hargs] at h
    exact ⟨Below.nominal_nil.1 h, fun hne => absurd hargs hne⟩
  · obtain ⟨hi, hraw, cs, hseen, hlen, _⟩ := (Below.nominal_cons (by simpa using hargs)).1 h
    refine ⟨hi, fun _ => ⟨by simpa using hraw, _, cs, ?_, hseen, by simpa using hlen⟩⟩
    rw [length_captureArgs, List.length_map]

/-- A declaration that is applied to arguments is not the top declaration. -/
theorem ne_object (hs : s.Regular k) {b : Nominal} (hb : b.toTy.Regular s k) (hargs : b.args ≠ []) :
    b.decl ≠ objectName := by
  intro ho
  rw [Nominal.toTy, Ty.Regular, ho] at hb
  rcases hb.1.eq_nil_or hs.object with h | h
  · exact hargs h
  · exact hargs (List.length_eq_zero_iff.1 h)

/-- **What the meeting of two applied declarations answers.** -/
theorem meeting_answers (hs : s.Regular k) {a b : Nominal} {l : Lineage} {r : Meeting}
    (hm : m.Faithful s) (ha : s.Takes k a.decl l a.args) (hb : b.toTy.Regular s k)
    (h : (s.meeting a b).Answers m r m') :
    (r = .never → m.Grows s k m' ∧ ¬ s.CanMeet a b) ∧
      (r = .always → m.Stays s m' ∧ Settles s (s.inherits a.decl b.decl) (.ok true) ∧ b.args = []) ∧
      ∀ cs, r = .found cs → s.Meets k m a b cs m' := by
  obtain ⟨i, m₁, hanswer, h⟩ := answers_bind.1 h
  obtain ⟨hi, hst⟩ := (inherits_steady s a.decl b.decl).stays hm hanswer
  cases i with
  | false =>
    obtain ⟨rfl, rfl⟩ := answers_pure.1 h
    refine ⟨fun _ => ⟨hst.grows k, fun hcan => ?_⟩, by simp, by simp⟩
    have := hi.unique hcan.1
    injection this with this
    cases this
  | true =>
    simp only [if_true] at h
    split at h
    · next hempty =>
      obtain ⟨rfl, rfl⟩ := answers_pure.1 h
      exact ⟨by simp, fun _ => ⟨hst, hi, List.isEmpty_iff.1 hempty⟩, by simp⟩
    · next hempty =>
      have hargs : b.args ≠ [] := fun h0 => hempty (List.isEmpty_iff.2 h0)
      obtain ⟨raw, m₂, hraw, h⟩ := answers_bind.1 h
      obtain ⟨hrawiff, hst₂⟩ := isRaw_answers ha.lineage hst.faithful hraw
      have hst' := hst.trans hst₂
      cases raw with
      | true =>
        obtain ⟨rfl, rfl⟩ := answers_pure.1 h
        refine ⟨fun _ => ⟨hst'.grows k, fun hcan => ?_⟩, by simp, by simp⟩
        obtain ⟨hnil, hps⟩ := hrawiff.1 rfl
        exact hps ((hcan.2 hargs).1 hnil)
      | false =>
        simp only [Bool.false_eq_true, if_false] at h
        obtain ⟨r₀, m₄, hsuper, h⟩ := answers_bind.1 h
        obtain ⟨a', m₃, hcap, hseen⟩ := answers_bind.1 hsuper
        obtain ⟨rfl, hf₃, hscope, htame⟩ := capture_answers hs hst'.faithful ha hcap
        rw [seenAs, if_neg (ne_object hs hb hargs)] at hseen
        obtain ⟨hst₄, hnone, hsome⟩ := climb_answers hs.parents hf₃
          (regular_captureArgs ha m₂.lastCaptured) hseen
        have hlast : m₂.lastCaptured = m.lastCaptured := hst'.keeps.last
        have hscope' : m₄.scope = m.scope.capture s a.decl (a.args.map Arg.shape) := by
          rw [hst₄.keeps.scope_eq, hscope, hst'.keeps.scope_eq]
        have htame' : m.Tame s k → m₄.Tame s k := fun h =>
          hst₄.keeps.tame (htame (hst'.keeps.tame h))
        have hgrows : m.Grows s k m₄ :=
          ⟨hst₄.faithful, by rw [hscope']; exact Scope.le_capture .., htame'⟩
        simp only [hlast, ← captureArgs_shape] at hnone hsome
        have hfound : s.CanMeet a b → ∃ cs, s.SeenAs b.decl a.decl
            (captureArgs m.lastCaptured (a.args.map Arg.shape)) cs ∧
              cs.length = b.args.length := by
          intro hcan
          obtain ⟨_, as, cs, has, hseen', hlen⟩ := hcan.2 hargs
          have hlen₀ : (captureArgs m.lastCaptured (a.args.map Arg.shape)).length = as.length := by
            rw [length_captureArgs, List.length_map, has]
          obtain ⟨cs', hseen', hlen'⟩ := hseen'.of_length hlen₀
          exact ⟨cs', hseen', hlen'.trans hlen⟩
        have hcases : (r = .never ∧ m' = m₄ ∧ ¬ s.CanMeet a b) ∨
            ∃ n, r₀ = some n ∧ n.args.length = b.args.length ∧ r = .found n.args ∧ m' = m₄ := by
          cases r₀ with
          | none =>
            obtain ⟨rfl, rfl⟩ := answers_pure.1 h
            refine .inl ⟨rfl, rfl, fun hcan => ?_⟩
            obtain ⟨cs, hseen', _⟩ := hfound hcan
            exact hnone rfl cs hseen'
          | some n =>
            simp only at h
            split at h
            · next hlen =>
              obtain ⟨rfl, rfl⟩ := answers_pure.1 h
              exact .inr ⟨n, rfl, hlen, rfl, rfl⟩
            · next hlen =>
              obtain ⟨rfl, rfl⟩ := answers_pure.1 h
              refine .inl ⟨rfl, rfl, fun hcan => ?_⟩
              obtain ⟨cs, hseen', hlen'⟩ := hfound hcan
              rw [← (hsome n rfl).1.unique hseen'] at hlen'
              exact hlen (by simpa using hlen')
        rcases hcases with ⟨rfl, rfl, hnot⟩ | ⟨n, rfl, hlen, rfl, rfl⟩
        · exact ⟨fun _ => ⟨hgrows, hnot⟩, by simp, by simp⟩
        · refine ⟨by simp, by simp, fun cs hcs => ?_⟩
          injection hcs with hcs
          subst hcs
          refine ⟨hst₄.faithful, hscope', htame', hi, hargs, fun hnil => ?_, (hsome n rfl).1, hlen,
            (hsome n rfl).2⟩
          exact Classical.byContradiction fun hps =>
            Bool.false_ne_true (hrawiff.2 ⟨hnil, hps⟩)

/-- **Where inheritance has no cycle, it is known how applied declarations meet.** -/
theorem meeting_total (hs : s.Regular k) (hacyc : s.Acyclic) {a b : Nominal} {l : Lineage}
    (hm : m.Faithful s) (ha : s.Takes k a.decl l a.args) (hb : b.toTy.Regular s k) :
    ∃ r m', (s.meeting a b).Answers m r m' := by
  obtain ⟨i, hi⟩ := inherits_answerable hs.parentsKnown b.decl (by rw [ha.lineage]; rfl)
  obtain ⟨m₁, hanswer, hst⟩ := hi.stays hm
  rw [meeting]
  cases i with
  | false => exact ⟨_, _, answers_bind.2 ⟨false, m₁, hanswer, answers_pure.2 ⟨rfl, rfl⟩⟩⟩
  | true =>
    cases hempty : b.args.isEmpty with
    | true => exact ⟨_, _, answers_bind.2 ⟨true, m₁, hanswer, answers_pure.2 ⟨rfl, rfl⟩⟩⟩
    | false =>
      have hargs : b.args ≠ [] := fun h0 => by rw [h0] at hempty; cases hempty
      obtain ⟨m₂, hraw, hst₂⟩ := (isRaw_settles ha.lineage).stays hst.faithful
      cases hb' : a.args.isEmpty && !l.params.isEmpty with
      | true =>
        rw [hb'] at hraw
        exact ⟨_, _, answers_bind.2 ⟨true, m₁, hanswer, answers_bind.2 ⟨true, m₂, hraw,
          answers_pure.2 ⟨rfl, rfl⟩⟩⟩⟩
      | false =>
        rw [hb'] at hraw
        obtain ⟨a', m₃, hcap⟩ := capture_total hst₂.faithful ha.lineage ha.count
        obtain ⟨rfl, hf₃, _⟩ := capture_answers hs hst₂.faithful ha hcap
        obtain ⟨r, m₄, hclimb⟩ := climb_total hs.parentsFit b.decl
          (n := { a with args := captureArgs m₂.lastCaptured a.args }) hf₃
          (fits_captureArgs ha m₂.lastCaptured) fun d _ => hacyc.way b.decl d
        have hsuper : (s.supertypeAs a b.decl).Answers m₂ r m₄ := by
          refine answers_bind.2 ⟨_, m₃, hcap, ?_⟩
          rw [seenAs, if_neg (ne_object hs hb hargs)]
          exact hclimb
        cases r with
        | none =>
          exact ⟨_, _, answers_bind.2 ⟨true, m₁, hanswer, answers_bind.2 ⟨false, m₂, hraw,
            answers_bind.2 ⟨none, m₄, hsuper, answers_pure.2 ⟨rfl, rfl⟩⟩⟩⟩⟩
        | some n =>
          by_cases hlen : n.args.length = b.args.length
          · refine ⟨.found n.args, m₄, answers_bind.2 ⟨true, m₁, hanswer, answers_bind.2
              ⟨false, m₂, hraw, answers_bind.2 ⟨some n, m₄, hsuper, ?_⟩⟩⟩⟩
            simp [hlen]
          · refine ⟨.never, m₄, answers_bind.2 ⟨true, m₁, hanswer, answers_bind.2
              ⟨false, m₂, hraw, answers_bind.2 ⟨some n, m₄, hsuper, ?_⟩⟩⟩⟩
            simp [hlen]

end Setting
end Generics
