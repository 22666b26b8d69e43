/-
# Arguments that fit are found to fit again

The check of an applied declaration asks of each argument whether it fits its parameter (`Setting.argFits`),
with the captured arguments put in the place of the parameters. Each time it is asked, the declaration is
captured anew, and the bounds are built anew. The two runs agree up to the numbers of what was captured and
built, so what was answered once is not denied later (`Setting.Recaptures.fitting`).

Besides, nothing else comes of it: over counted types the questions of the check go on for ever or have an
answer. `Query.Succeeds` says of a question that it has one of the wanted kind, if it has one.
-/

import Generics.Proofs.Arities
import Generics.Proofs.Alignments

namespace Generics

/-- The second memory is one that questions may leave, asked with the first one, and the bounds of the
variables captured in it have the right numbers of arguments. -/
structure Memory.Proceeds (s : Setting) (m m' : Memory) : Prop where
  precedes : m.Precedes s m'
  counted : m'.Counted s

namespace Query

variable {α β : Type} {s : Setting} {m m₁ : Memory} {q : Query α} {K L : α → Memory → Prop}

/-- Asked with the memory, the question has an answer of the wanted kind, or goes on for ever. -/
def Succeeds (m : Memory) (q : Query α) (K : α → Memory → Prop) : Prop :=
  (∃ a m', q.Answers m a m' ∧ K a m') ∨ ∃ m', q.outcome m = (.error .exhausted, m')

namespace Succeeds

/-- Answering at once succeeds with what is wanted. -/
theorem pure {a : α} (h : K a m) : Succeeds m (pure a) K := .inl ⟨a, m, answers_pure.2 ⟨rfl, rfl⟩, h⟩

/-- What succeeds for an end succeeds for a weaker one. -/
theorem imp (h : Succeeds m q K) (hKL : ∀ a m', K a m' → L a m') : Succeeds m q L :=
  h.imp_left fun ⟨a, m', ha, hK⟩ => ⟨a, m', ha, hKL a m' hK⟩

/-- Questions one after the other succeed if the second one does after the first one. -/
theorem bind {f : α → Query β} {K : β → Memory → Prop}
    (h : Succeeds m q fun a m' => Succeeds m' (f a) K) : Succeeds m (q >>= f) K := by
  rcases h with ⟨a, m₁, ha, ⟨b, m₂, hb, hK⟩ | ⟨m₂, hf⟩⟩ | ⟨m₁, hq⟩
  · exact .inl ⟨b, m₂, answers_bind.2 ⟨a, m₁, ha, hb⟩, hK⟩
  · refine .inr ⟨m₂, ?_⟩
    rw [outcome_bind, show q.outcome m = (.ok a, m₁) from ha]
    exact hf
  · refine .inr ⟨m₁, ?_⟩
    rw [outcome_bind, hq]

/-- Looking at the memory succeeds. -/
theorem get {K : Memory → Memory → Prop} (h : K m m) : Succeeds m get K :=
  .inl ⟨m, m, answers_get.2 ⟨rfl, rfl⟩, h⟩

/-- What does not fail, unless it goes on for ever, answers as it does. -/
theorem of_goes {R : α → Prop} (hq : Goes s R q) (hkeeps : Preserves (m.Precedes s) q)
    (hm : m.Proceeds s m₁) :
    Succeeds m₁ q fun a m₂ => q.Answers m₁ a m₂ ∧ R a ∧ m.Proceeds s m₂ := by
  have hprecedes := hkeeps m₁ hm.precedes
  have hcounted := hq.leaves m₁ hm.counted
  cases h : q.outcome m₁ with
  | mk r m₂ =>
    rw [h] at hprecedes hcounted
    cases r with
    | ok a => exact .inl ⟨a, m₂, h, h, hq.answers m₁ a hm.counted (by rw [h]), hprecedes, hcounted⟩
    | error f =>
      obtain rfl := hq.fails m₁ f hm.counted (by rw [h])
      exact .inr ⟨m₂, h⟩

end Succeeds
end Query

namespace Setting

open Query

variable {s : Setting} {m m₁ : Memory} {depth : Nat}

/-- A comparison that was granted is answered yes again. -/
theorem below_succeeds (hcounted : s.Counted) {a b : Ty} (ha : a.Counted s.Applies) (hb : b.Counted s.Applies)
    (hm : m.Proceeds s m₁) (h : Grants (m.Precedes s) (s.belowWithin depth [] a b)) :
    Succeeds m₁ (s.belowWithin depth [] a b) fun r m₂ => r = true ∧ m.Proceeds s m₂ :=
  (Succeeds.of_goes (belowWithin_goes hcounted depth [] ha hb)
    ((keeps_precedes s m).belowWithin depth [] a b) hm).imp fun r m₂ hr =>
      ⟨h m₁ r m₂ hm.precedes hr.1, hr.2.2⟩

/-- Capturing bounds does not depend on how deep comparisons may nest. -/
theorem captureBounds_withDepth (n : Nat) (σ : Subst) (last : Nat) (ps : List TypeVar) (as : List Arg) :
    (s.withDepth n).captureBounds σ last ps as = s.captureBounds σ last ps as := by
  induction ps generalizing last as with
  | nil => rfl
  | cons p ps ih =>
    cases as with
    | nil => rfl
    | cons a as =>
      cases a with
      | type t => exact ih last as
      | wild u l =>
        rw [captureBounds, captureBounds]
        simp only [ih]
        rfl

/-- Capturing does not depend on how deep comparisons may nest. -/
theorem capture_withDepth (n : Nat) (a : Nominal) : (s.withDepth n).capture a = s.capture a := by
  rw [capture, capture]
  simp only [captureBounds_withDepth]
  rfl

/-- At any depth questions leave memories that come after. -/
theorem keeps_precedes_withDepth (n : Nat) (m : Memory) : (s.withDepth n).Keeps (m.Precedes s) := by
  have hiff : m.Precedes (s.withDepth n) = m.Precedes s :=
    funext fun _ => propext Memory.Precedes.withDepth_iff
  exact hiff ▸ keeps_precedes (s.withDepth n) m

/-! ## What is asked of one argument -/

/-- What the check of an applied declaration asks of an argument, with the one after capture: the type is
below the bound of the parameter, or the bounds of the variable captured for the wildcard fit together. -/
def argFits (s : Setting) (σ : Subst) (p : TypeVar) : Arg → Arg → Query Bool
  | .type t, _ => replace σ (s.catalog.upper p) >>= fun bound => s.below t bound
  | .wild _ _, .type (.var (.captured id)) => s.capturedFits id
  | .wild _ _, _ => pure true

/-- Arguments are compared with their bounds one after the other. -/
theorem checkBounds_cons (s : Setting) (n : Nominal) (σ : Subst) (p : TypeVar) (ps : List TypeVar)
    (last : Nat) (a : Arg) (as : List Arg) :
    ∃ c last', captureArgs last (a :: as) = c :: captureArgs last' as ∧
      s.checkBounds n σ (p :: ps) (a :: as) (captureArgs last (a :: as)) = s.argFits σ p a c >>= fun fits =>
        if fits then s.checkBounds n σ ps as (captureArgs last' as) else outOfBounds n a p := by
  cases a with
  | type t =>
    refine ⟨_, last, rfl, ?_⟩
    rw [captureArgs, checkBounds, argFits, bind_assoc]
  | wild u l => exact ⟨_, last + 1, rfl, rfl⟩

variable {σ σ' : Subst} {p : TypeVar} {a c c' : Arg}

/-- Whether an argument fits is answered, unless comparing goes on for ever. -/
theorem argFits_goes (hcounted : s.Counted) (hσ : σ.Counted s.Applies) (ha : a.Counted s.Applies) :
    Goes s (fun _ => True) ((s.withDepth depth).argFits σ p a c) := by
  unfold argFits
  split
  · simp only [below_withDepth]
    exact (replace_goes hσ (hcounted.upper p)).bind fun b hb =>
      belowWithin_goes hcounted depth [] (Arg.counted_type.1 ha) hb
  · rw [capturedFits]
    simp only [below_withDepth]
    exact Ensures.get.bind fun m hm => belowWithin_goes hcounted depth [] (hm.lower _) (hm.upper _)
  · exact .pure trivial

/-- Asking whether an argument fits leaves a memory that comes after. -/
theorem argFits_precedes (s : Setting) (depth : Nat) (m : Memory) (σ : Subst) (p : TypeVar) (a c : Arg) :
    Preserves (m.Precedes s) ((s.withDepth depth).argFits σ p a c) := by
  have hkeeps := keeps_precedes_withDepth (s := s) depth m
  unfold argFits
  split
  · have hreplace : Preserves (m.Precedes s) (replace σ ((s.withDepth depth).catalog.upper p)) :=
      (replace_composed (s := s.withDepth depth) (K := .all) (fun _ t _ => t.in_all)
        (Ty.in_all _)).preserves hkeeps
    exact hreplace.bind fun b => hkeeps.belowWithin _ [] _ b
  · exact (capturedFits_composed (Realm.closed_all _) trivial).preserves hkeeps
  · exact .pure _

/-- In runs that agree, the same is answered of what is alike. -/
theorem argFits_parallel {ρ : Pairing} (hρ : ρ.Exact) (hs : s.Covers ρ) (hσ : σ.Like ρ σ')
    (hp : ρ.declared p) (ha : a.Like ρ a) (hc : c.Like ρ c')
    (hwild : a.isWild = true → ∃ i, c = .type (.var (.captured i))) (d d' : Nat) :
    Parallel (Memory.Pairs s ρ) (· = ·) ((s.withDepth d).argFits σ p a c)
      ((s.withDepth d').argFits σ' p a c') := by
  cases a with
  | type t =>
    obtain ⟨_, heq, ht⟩ := Arg.like_type_iff.1 ha
    cases heq
    simp only [argFits, below_withDepth]
    exact (replace_parallel hρ.number hσ (hs.upper p hp)).bind fun b b' hb =>
      belowWithin_parallel hρ hs d d' .nil ht hb
  | wild u l =>
    obtain ⟨i, rfl⟩ := hwild rfl
    obtain ⟨_, rfl, ht⟩ := Arg.like_type_iff.1 hc
    obtain ⟨_, rfl, hvar⟩ := Ty.like_var_iff.1 ht
    obtain ⟨j, rfl, -⟩ := id hvar
    simp only [argFits, capturedFits, below_withDepth]
    exact Parallel.get.bind fun m m' hP =>
      belowWithin_parallel hρ hs d d' .nil (hP.lower hvar) (hP.upper hvar)

/-- Once it was answered yes that the argument fits its parameter, after the memory `k`. -/
def Fitted (s : Setting) (k : Memory) (σ : Subst) (p : TypeVar) (a c : Arg) : Prop :=
  ∃ depth l l', k.Precedes s l ∧ ((s.withDepth depth).argFits σ p a c).Answers l true l'

/-- It is answered yes that the argument fits its parameter, from the memory `k` on. -/
def Fitting (s : Setting) (k : Memory) (depth : Nat) (σ : Subst) (p : TypeVar) (a c : Arg) : Prop :=
  ∀ r, k.Proceeds s r →
    Succeeds r ((s.withDepth depth).argFits σ p a c) fun x r' => x = true ∧ k.Proceeds s r'

/-- An argument that fits goes on to fit. -/
theorem Fitting.later {k r : Memory} (h : s.Fitting k depth σ p a c) (hr : k.Proceeds s r) :
    s.Fitting r depth σ p a c := by
  intro r₁ hr₁
  rcases h r₁ ⟨hr.precedes.trans hr₁.precedes, hr₁.counted⟩ with ⟨x, r₂, hx, rfl, hr₂⟩ | hexhausted
  · exact .inl ⟨_, r₂, hx, rfl, (argFits_precedes s depth r σ p a c).answers hr₁.precedes hx, hr₂.counted⟩
  · exact .inr hexhausted

/-- Where all arguments are within bounds, each one fitted. -/
theorem checkBounds_fitted {k l l' : Memory} {n : Nominal} {ps : List TypeVar} {as : List Arg} {last : Nat}
    (hl : k.Precedes s l)
    (h : ((s.withDepth depth).checkBounds n σ ps as (captureArgs last as)).Answers l () l') {i : Nat}
    (hp : ps[i]? = some p) (ha : as[i]? = some a) (hc : (captureArgs last as)[i]? = some c) :
    s.Fitted k σ p a c := by
  induction as generalizing ps last l i with
  | nil => cases ha
  | cons x as ih =>
    cases ps with
    | nil => cases hp
    | cons q ps =>
      obtain ⟨y, last', hcaptured, heq⟩ := checkBounds_cons (s.withDepth depth) n σ q ps last x as
      rw [heq] at h
      rw [hcaptured] at hc
      obtain ⟨fits, l₁, hfits, h⟩ := answers_bind.1 h
      cases fits with
      | false => exact absurd h answers_throw
      | true =>
        cases i with
        | zero =>
          cases hp
          cases ha
          cases hc
          exact ⟨depth, l, l₁, hl, hfits⟩
        | succ i => exact ih ((argFits_precedes s depth k σ q x y).answers hl hfits) h hp ha hc

/-- Where each argument fits, all are within bounds. -/
theorem checkBounds_succeeds {k r : Memory} {n : Nominal} {ps : List TypeVar} {as : List Arg} {last : Nat}
    (h : ∀ (i : Nat) p a c, ps[i]? = some p → as[i]? = some a → (captureArgs last as)[i]? = some c →
      s.Fitting k depth σ p a c) (hr : k.Proceeds s r) :
    Succeeds r ((s.withDepth depth).checkBounds n σ ps as (captureArgs last as))
      fun _ r' => k.Proceeds s r' := by
  induction as generalizing ps last r with
  | nil =>
    cases ps <;> exact .pure hr
  | cons x as ih =>
    cases ps with
    | nil => exact .pure hr
    | cons q ps =>
      obtain ⟨y, last', hcaptured, heq⟩ := checkBounds_cons (s.withDepth depth) n σ q ps last x as
      rw [heq]
      rw [hcaptured] at h
      refine .bind ((h 0 q x y rfl rfl rfl r hr).imp ?_)
      rintro _ r₁ ⟨rfl, hr₁⟩
      exact ih (fun i p a c hp ha hc => h (i + 1) p a c hp ha hc) hr₁

/-! ## Capturing, assigning and comparing -/

section Precedes

variable (s : Setting) (depth : Nat) (m : Memory) (n : Nominal)

/-- Checking parameters leaves a memory that comes after. -/
theorem checkedParams_precedes : Preserves (m.Precedes s) ((s.withDepth depth).checkedParams n) :=
  (checkedParams_composed n.in_all).preserves (keeps_precedes_withDepth depth m)

/-- Assigning arguments to parameters leaves a memory that comes after. -/
theorem assignment_precedes : Preserves (m.Precedes s) ((s.withDepth depth).assignment n) :=
  (assignment_composed n.in_all).preserves (keeps_precedes_withDepth depth m)

/-- Fitting arguments leaves a memory that comes after. -/
theorem checkFit_precedes (ps : List TypeVar) :
    Preserves (m.Precedes s) ((s.withDepth depth).checkFit n ps) :=
  (checkFit_composed (Realm.closed_all _) n.in_all fun _ _ => trivial).preserves
    (keeps_precedes_withDepth depth m)

/-- Comparing arguments with bounds leaves a memory that comes after. -/
theorem checkBounds_precedes (σ : Subst) (ps : List TypeVar) (as cs : List Arg) :
    Preserves (m.Precedes s) ((s.withDepth depth).checkBounds n σ ps as cs) :=
  (checkBounds_composed (Realm.closed_all _) n (fun _ t _ => t.in_all) (fun _ _ => trivial)
    (fun a _ => a.in_all) fun a _ => a.in_all).preserves (keeps_precedes_withDepth depth m)

end Precedes

/-- Once all arguments fitted their parameters, with those after capture in the place of the parameters. -/
def FittedAll (s : Setting) (k : Memory) (ps : List TypeVar) (as cs : List Arg) : Prop :=
  ∀ (i : Nat) p a c, ps[i]? = some p → as[i]? = some a → cs[i]? = some c →
    s.Fitted k (Subst.zip ps (cs.filterMap Arg.type?)) p a c

/-- All arguments fit their parameters, with those after capture in the place of the parameters. -/
def FittingAll (s : Setting) (k : Memory) (depth : Nat) (ps : List TypeVar) (as cs : List Arg) : Prop :=
  ∀ (i : Nat) p a c, ps[i]? = some p → as[i]? = some a → cs[i]? = some c →
    s.Fitting k depth (Subst.zip ps (cs.filterMap Arg.type?)) p a c

/-- What passed the check was captured, and all its arguments fitted. -/
theorem checkFit_fitted {l l' : Memory} {n : Nominal} {lin : Lineage} (hlin : s.lineageOf n.decl = some lin)
    (hl : l.Numbered s) (h : ((s.withDepth depth).checkFit n lin.params).Answers l () l') :
    ∃ c m, (s.capture n).Answers l c m ∧ m.Precedes s l' ∧ s.FittedAll m lin.params n.args c.args := by
  obtain ⟨c, m, hcapture, h⟩ := answers_bind.1 h
  rw [capture_withDepth] at hcapture
  have hm := (capture_precedes hl hcapture).numbered
  obtain ⟨σ, m₁, hassign, h⟩ := answers_bind.1 h
  have hm₁ := (assignment_precedes s depth m c).answers hm.refl hassign
  obtain ⟨rfl, -⟩ := capture_fills hl.faithful hcapture
  obtain ⟨rfl, -⟩ := assignment_answers (s := s)
    (n := { n with args := captureArgs l.lastCaptured n.args }) hlin hm.faithful hassign
  rw [paramsOf_eq hlin] at h
  exact ⟨_, m, hcapture, (checkBounds_precedes s depth m n _ _ _ _).answers hm₁ h,
    fun i p a x => checkBounds_fitted hm₁ h⟩

/-- Arguments are found to fit if the declaration is captured so that they do. -/
theorem checkFit_succeeds (hcounted : s.Counted) {k r : Memory} {n : Nominal} {lin : Lineage}
    (hlin : s.lineageOf n.decl = some lin) (hn : n.toTy.Counted s.Applies) (hargs : n.args ≠ [])
    (h : ∀ r c r', k.Proceeds s r → (s.capture n).Answers r c r' →
      s.FittingAll r' depth lin.params n.args c.args) (hr : k.Proceeds s r) :
    Succeeds r ((s.withDepth depth).checkFit n lin.params) fun _ r' => k.Proceeds s r' := by
  rw [checkFit, capture_withDepth]
  have hcapture := ((capture_composed (Realm.closed_all s.catalog) n.in_all).preserves (keeps_precedes s k))
  refine .bind ((Succeeds.of_goes (capture_goes hcounted hn) hcapture hr).imp ?_)
  rintro c r₁ ⟨hcapture, ⟨hready, hlength⟩, hr₁⟩
  have hfitting := h r c r₁ hr hcapture
  have hstart : r₁.Proceeds s r₁ := ⟨hr₁.precedes.numbered.refl, hr₁.counted⟩
  have hcargs : c.args ≠ [] := fun h => hargs (List.length_eq_zero_iff.1 (by rw [← hlength, h]; rfl))
  refine .bind ((Succeeds.of_goes (assignment_goes hready hcargs)
    (assignment_precedes s depth r₁ c) hstart).imp ?_)
  rintro σ r₂ ⟨hassign, -, hr₂⟩
  obtain ⟨rfl, -⟩ := capture_fills hr.counted.faithful hcapture
  obtain ⟨rfl, -⟩ := assignment_answers (s := s)
    (n := { n with args := captureArgs r.lastCaptured n.args }) hlin hr₁.counted.faithful hassign
  rw [paramsOf_eq hlin]
  exact (checkBounds_succeeds hfitting hr₂).imp fun _ r' hr' =>
    ⟨hr₁.precedes.trans hr'.precedes, hr'.counted⟩

/-! ## The same type captured twice -/

/-- An applied declaration is captured once, and later it is captured again. -/
structure Recaptures (s : Setting) (n : Nominal) (a a' : Memory) (c : Nominal) (m m' : Memory)
    (c' : Nominal) : Prop where
  numbered : a.Numbered s
  spared : s.Spared a a' a' n.toTy
  once : (s.capture n).Answers a c a'
  between : a'.Precedes s m
  again : (s.capture n).Answers m c' m'

namespace Recaptures

variable {n c c' : Nominal} {a a' m m' l r : Memory}

/-- What is captured twice is aligned: the captured declarations are alike, and so are the memories. -/
theorem aligned (hs : s.Upright) (h : s.Recaptures n a a' c m m' c') (hl : a'.Precedes s l)
    (hr : m'.Precedes s r) : (Memory.alignment s a a' a' l m r).Exact ∧
      s.Covers (Memory.alignment s a a' a' l m r) ∧ c.Like (Memory.alignment s a a' a' l m r) c' ∧
        l.Pairs s (Memory.alignment s a a' a' l m r) r :=
  captures_aligned hs h.spared h.numbered h.once (capture_precedes h.numbered h.once).numbered.refl hl
    h.between h.again hr

/-- **The arguments that fitted when the type was captured fit when it is captured again.** -/
theorem fitting (hs : s.Upright) (hcounted : s.Counted) (h : s.Recaptures n a a' c m m' c') {lin : Lineage}
    (hlin : s.lineageOf n.decl = some lin) (hn : n.toTy.Counted s.Applies)
    (hfitted : s.FittedAll a' lin.params n.args c.args) (depth : Nat) :
    s.FittingAll m' depth lin.params n.args c'.args := by
  intro i p x y' hp hx hy' r hr
  obtain ⟨hc, -⟩ := capture_fills h.numbered.faithful h.once
  obtain ⟨hc', -⟩ := capture_fills h.between.faithful h.again
  have hargs := (Ty.counted_nominal.1 hn).2
  have hσ : Subst.Counted s.Applies (Subst.zip lin.params (c'.args.filterMap Arg.type?)) := by
    rw [hc']
    exact .zip _ (Arg.counted_types (Arg.counted_captureArgs _ hargs))
  obtain ⟨y, hy⟩ : ∃ y, c.args[i]? = some y := by
    refine ⟨_, List.getElem?_eq_getElem (?_ : i < c.args.length)⟩
    rw [hc, length_captureArgs]
    exact (List.getElem?_eq_some_iff.1 hx).1
  obtain ⟨once, l, l', hl, hyes⟩ := hfitted i p x y hp hx hy
  refine (Succeeds.of_goes (argFits_goes hcounted hσ (hargs x (List.mem_of_getElem? hx)))
    (argFits_precedes s depth m' _ p x y') hr).imp fun answer r' hanswer => ⟨?_, hanswer.2.2⟩
  obtain ⟨hexact, hcovers, hlike, hpairs⟩ := h.aligned hs hl hr.precedes
  have hn' : n.Like (Memory.alignment s a a' a' l m r) n :=
    Nominal.like_iff.2 (Memory.like_of_spared h.spared)
  have hself := rel_getElem? hn'.args i
  have hcaptured := rel_getElem? hlike.args i
  rw [hx] at hself
  rw [hy, hy'] at hcaptured
  cases hself with
  | some hself =>
  cases hcaptured with
  | some hcaptured =>
  refine ((argFits_parallel hexact hcovers (Subst.like_zip lin.params (like_types hlike.args))
    (hcovers.params _ lin hlin p (List.mem_of_getElem? hp)) hself hcaptured (fun hwild => ?_) once depth)
      l r true l' answer r' hpairs hyes hanswer.1).1.symm
  rw [hc] at hy
  rcases getElem?_captureArgs a.lastCaptured hp hx with ⟨t, rfl, -⟩ | ⟨u, lo, j, -, heq, -⟩
  · cases hwild
  · exact ⟨_, Option.some.inj (hy.symm.trans heq)⟩

end Recaptures

end Setting
end Generics
