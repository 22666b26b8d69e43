/-
# Which variables constraints mention

While constraints are reduced, wildcards are captured, and the bounds of a captured variable may
mention unknowns. `Marks` keep two sets of captured variables: those that were met, and among them
the clean ones, whose bounds mention no unknown, so that subtyping can judge them.

A pair of types that a constraint relates is kept `Tidy`: one of the two mentions clean variables
only, or both mention unknowns beside clean variables, and then one of them is an unknown itself (in
the plain fragment, where nothing is captured, this is not needed). This is what makes the bounds
that are filed with an unknown mention clean variables only. `Setting.Resolves.tidy` says that
reductions keep constraints tidy.
-/

import Generics.Proofs.Reductions

namespace Generics

/-- Every variable of the type is an unknown in `U` or a captured variable in `A`. -/
def Ty.Known (U : TypeVar → Prop) (A : Nat → Prop) (t : Ty) : Prop :=
  ∀ v ∈ t.vars, (∃ w, v = .declared w ∧ U w) ∨ ∃ i, v = .captured i ∧ A i

/-- The type is a declared variable. -/
def Ty.IsUnknown (t : Ty) : Prop := ∃ v, t = .var (.declared v)

namespace Ty.Known

variable {U : TypeVar → Prop} {A B : Nat → Prop} {t : Ty} {st : Site}

/-- A type over marked variables is so when more are marked. -/
theorem mono (h : t.Known U A) (hAB : ∀ i, A i → B i) : t.Known U B := fun v hv =>
  (h v hv).imp_right fun ⟨i, hi, hA⟩ => ⟨i, hi, hAB i hA⟩

/-- Which variables a type mentions is a matter of its shape. -/
theorem shape_iff : t.shape.Known U A ↔ t.Known U A := by
  rw [Known, Known, Ty.vars_shape]

/-- The members of an intersection mention what it does. -/
theorem member {ms : List Ty} (h : (Ty.inter st ms).Known U A) {m : Ty} (hm : m ∈ ms) :
    m.Known U A := fun v hv => h v (by rw [Ty.vars, Ty.mem_varsAll]; exact ⟨m, hm, hv⟩)

/-- A captured variable that is known is marked. -/
theorem captured {i : Nat} (h : (Ty.var (.captured i)).Known U A) : A i := by
  rcases h (.captured i) (by simp [Ty.vars]) with ⟨w, hw, _⟩ | ⟨j, hj, hA⟩
  · cases hw
  · cases hj
    exact hA

/-- A declared variable that is known is an unknown. -/
theorem unknown {v : TypeVar} (h : (Ty.var (.declared v)).Known U A) : U v := by
  rcases h (.declared v) (by simp [Ty.vars]) with ⟨w, hw, hU⟩ | ⟨j, hj, _⟩
  · cases hw
    exact hU
  · cases hj

/-- The type of null mentions nothing. -/
theorem null : Ty.null.Known U A := fun _ hv => by cases hv

end Ty.Known

/-- A type over captured variables mentions these only. -/
theorem Ty.Over.known {U : TypeVar → Prop} {A C : Nat → Prop} {t : Ty} (h : t.Over C)
    (hCA : ∀ i, C i → A i) : t.Known U A := fun v hv =>
  .inr ((h v hv).imp fun i hi => ⟨hi.1, hCA i hi.2⟩)

/-- The type of null is over any captured variables. -/
theorem Ty.over_null {C : Nat → Prop} : Ty.null.Over C := fun _ hv => by cases hv

/-- The captured variables that were met, and the clean ones among them. -/
structure Marks where
  used : Nat → Prop
  clean : Nat → Prop

/-- More variables are marked. -/
structure Marks.Le (μ ν : Marks) : Prop where
  used : ∀ i, μ.used i → ν.used i
  clean : ∀ i, μ.clean i → ν.clean i

/-- Marks are among themselves. -/
theorem Marks.Le.refl (μ : Marks) : μ.Le μ := ⟨fun _ => id, fun _ => id⟩

/-- The bounds of the marked variables are regular and mention marked variables and unknowns; the
scope is in order on the clean ones. Nothing is marked in the plain fragment, and without unknowns
everything marked is clean. -/
structure Scope.Grounded (s : Setting) (k : Fragment) (U : TypeVar → Prop) (Γ : Scope)
    (μ : Marks) : Prop where
  sound : Γ.Sound s k μ.clean
  clean : ∀ i, μ.clean i → μ.used i
  le_last : ∀ i, μ.used i → i ≤ Γ.last
  regular : ∀ i, μ.used i → (Γ.upper i).Regular s k ∧ (Γ.lower i).Regular s k
  known : ∀ i, μ.used i → (Γ.upper i).Known U μ.used ∧ (Γ.lower i).Known U μ.used
  plain : k = .plain → ∀ i, ¬ μ.used i
  closed : (∀ v, ¬ U v) → ∀ i, μ.used i → μ.clean i

namespace Scope.Grounded

variable {s : Setting} {k : Fragment} {U : TypeVar → Prop} {Γ Δ : Scope} {μ : Marks}
  {decl : String} {l : Lineage} {as : List Arg}

/-- A scope stays grounded when it gets larger. -/
theorem mono (h : Γ.Grounded s k U μ) (hle : Γ.Le Δ) : Δ.Grounded s k U μ where
  sound := h.sound.mono hle
  clean := h.clean
  le_last i hi := Nat.le_trans (h.le_last i hi) hle.last
  regular i hi := by
    rw [hle.upper i (h.le_last i hi), hle.lower i (h.le_last i hi)]
    exact h.regular i hi
  known i hi := by
    rw [hle.upper i (h.le_last i hi), hle.lower i (h.le_last i hi)]
    exact h.known i hi
  plain := h.plain
  closed := h.closed

/-- **Capturing keeps the scope grounded**, with the new variables marked; if the scope stays in
order on them, they may be clean. -/
theorem capture (hs : s.Regular k) (h : Γ.Grounded s k U μ) (ht : s.Takes k decl l as)
    (hknown : ∀ a ∈ as, ∀ v ∈ a.vars, (∃ w, v = .declared w ∧ U w) ∨ ∃ i, v = .captured i ∧ μ.used i)
    {C : Nat → Prop} (hC : (Γ.capture s decl as).Sound s k C)
    (hsub : ∀ i, C i → widen μ.used Γ (Γ.capture s decl as) i)
    (hclosed : (∀ v, ¬ U v) → ∀ i, widen μ.used Γ (Γ.capture s decl as) i → C i) :
    (Γ.capture s decl as).Grounded s k U ⟨widen μ.used Γ (Γ.capture s decl as), C⟩ where
  sound := hC
  clean := hsub
  le_last := by
    rintro i (hi | hi)
    · exact Nat.le_trans (h.le_last i hi) (le_capture s Γ decl as).last
    · exact hi.2
  regular := by
    rintro i (hi | ⟨hi, hle⟩)
    · exact (h.mono (le_capture s Γ decl as)).regular i hi
    · exact (capture_new hs ht hi hle).1
  known := by
    have harg : ∀ v, (∃ a ∈ as, v ∈ a.vars) → (∃ w, v = .declared w ∧ U w) ∨
        ∃ i, v = .captured i ∧ widen μ.used Γ (Γ.capture s decl as) i := fun v ⟨a, ha, hv⟩ =>
      (hknown a ha v hv).imp_right (Exists.imp fun i hi => ⟨hi.1, .inl hi.2⟩)
    rintro i (hi | ⟨hi, hle⟩)
    · obtain ⟨hu, hl⟩ := (h.mono (le_capture s Γ decl as)).known i hi
      exact ⟨hu.mono fun _ => .inl, hl.mono fun _ => .inl⟩
    · obtain ⟨_, hu, hl⟩ := capture_new hs ht hi hle
      exact ⟨fun v hv => (hu v hv).elim (harg v) fun hnew => .inr hnew.widen,
        fun v hv => harg v (hl v hv)⟩
  plain := by
    rintro hk i (hi | ⟨hi, hle⟩)
    · exact h.plain hk i hi
    · obtain ⟨slot, hslot⟩ := Setting.slot?_isSome ht.length_le hi hle
      cases (ht.of_slot (Setting.mem_slots_of_slot? hslot).1).1.symm.trans hk
  closed := hclosed

/-- Without unknowns a type over marked variables is over clean ones. -/
theorem over_clean (h : Γ.Grounded s k U μ) (hU : ∀ v, ¬ U v) {t : Ty} (ht : t.Known U μ.used) :
    t.Over μ.clean := by
  intro v hv
  rcases ht v hv with ⟨w, _, hw⟩ | ⟨i, hi, hused⟩
  · exact absurd hw (hU w)
  · exact ⟨i, hi, h.closed hU i hused⟩

end Scope.Grounded

/-- A primitive is compared with nothing that has a bare variable. -/
def Ty.Faces (a b : Ty) : Prop := a.isPrim = true → ∀ v, Ty.var v ∉ b.conjuncts

/-- One of the types mentions clean variables only, or both mention unknowns beside clean variables
and then one of them is an unknown, unless nothing is captured. -/
def Marks.Clears (μ : Marks) (k : Fragment) (U : TypeVar → Prop) (a b : Ty) : Prop :=
  a.Over μ.clean ∨ b.Over μ.clean ∨
    (a.Known U μ.clean ∧ b.Known U μ.clean ∧ (k = .plain ∨ a.IsUnknown ∨ b.IsUnknown))

/-- The types may be related by a constraint. -/
structure Setting.Tidy (s : Setting) (k : Fragment) (U : TypeVar → Prop) (μ : Marks) (a b : Ty) :
    Prop where
  left : a.Whole s k
  right : b.Whole s k
  leftKnown : a.Known U μ.used
  rightKnown : b.Known U μ.used
  clears : μ.Clears k U a b
  faces : k = .full → a.Faces b ∧ b.Faces a

namespace Setting.Tidy

variable {s : Setting} {k : Fragment} {U : TypeVar → Prop} {μ ν : Marks} {a b : Ty}

/-- Tidiness is the same both ways. -/
theorem symm (h : s.Tidy k U μ a b) : s.Tidy k U μ b a where
  left := h.right
  right := h.left
  leftKnown := h.rightKnown
  rightKnown := h.leftKnown
  clears := by
    rcases h.clears with ha | hb | ⟨ha, hb, hk | hu | hu⟩
    · exact .inr (.inl ha)
    · exact .inl hb
    · exact .inr (.inr ⟨hb, ha, .inl hk⟩)
    · exact .inr (.inr ⟨hb, ha, .inr (.inr hu)⟩)
    · exact .inr (.inr ⟨hb, ha, .inr (.inl hu)⟩)
  faces hk := (h.faces hk).symm

/-- Types stay tidy when more is marked. -/
theorem mono (h : s.Tidy k U μ a b) (hle : μ.Le ν) : s.Tidy k U ν a b where
  left := h.left
  right := h.right
  leftKnown := h.leftKnown.mono hle.used
  rightKnown := h.rightKnown.mono hle.used
  clears := by
    rcases h.clears with ha | hb | ⟨ha, hb, hu⟩
    · exact .inl (ha.mono hle.clean)
    · exact .inr (.inl (hb.mono hle.clean))
    · exact .inr (.inr ⟨ha.mono hle.clean, hb.mono hle.clean, hu⟩)
  faces := h.faces

/-- Types that are no primitives. -/
theorem of_regular (ha : a.Regular s k) (hb : b.Regular s k) (hak : a.Known U μ.used)
    (hbk : b.Known U μ.used) (h : μ.Clears k U a b) : s.Tidy k U μ a b where
  left := ha.whole
  right := hb.whole
  leftKnown := hak
  rightKnown := hbk
  clears := h
  faces := by
    rintro rfl
    exact ⟨fun hp => absurd hp (by rw [ha.not_prim]; simp),
      fun hp => absurd hp (by rw [hb.not_prim]; simp)⟩

/-- A type without variables in the place of one side. -/
theorem closed_left {x : Ty} (h : s.Tidy k U μ a b) (hx : x.Regular s k) (hvars : x.vars = []) :
    s.Tidy k U μ x b where
  left := hx.whole
  right := h.right
  leftKnown v hv := by simp [hvars] at hv
  rightKnown := h.rightKnown
  clears := .inl fun v hv => by simp [hvars] at hv
  faces := by
    rintro rfl
    refine ⟨fun hp => absurd hp (by rw [hx.not_prim]; simp), fun _ v hv => ?_⟩
    have := Ty.mem_vars_of_mem_conjuncts hv
    simp [hvars] at this

/-- A member in the place of an intersection. -/
theorem member {st : Site} {ms : List Ty} (h : s.Tidy k U μ (.inter st ms) b) {m : Ty}
    (hm : m ∈ ms) : s.Tidy k U μ m b := by
  obtain ⟨hflat, hreg⟩ := h.left.members m hm
  refine ⟨hreg.whole, h.right, h.leftKnown.member hm, h.rightKnown, ?_, ?_⟩
  · rcases h.clears with ha | hb | ⟨ha, hb, hk | ⟨v, hv⟩ | hu⟩
    · exact .inl (ha.member hm)
    · exact .inr (.inl hb)
    · exact .inr (.inr ⟨ha.member hm, hb, .inl hk⟩)
    · cases hv
    · exact .inr (.inr ⟨ha.member hm, hb, .inr (.inr hu)⟩)
  · rintro rfl
    refine ⟨fun hp => absurd hp (by rw [hreg.not_prim]; simp), fun hp v hv => ?_⟩
    rw [Ty.conjuncts_of_not_inter hflat, List.mem_singleton] at hv
    exact (h.faces rfl).2 hp v (hv ▸ hm)

/-- A bound in the place of a captured variable. -/
theorem bound {i : Nat} {x : Ty} (h : s.Tidy k U μ (.var (.captured i)) b) (hx : x.Regular s k)
    (hknown : x.Known U μ.used) (hclean : μ.clean i → x.Over μ.clean) : s.Tidy k U μ x b := by
  refine ⟨hx.whole, h.right, hknown, h.rightKnown, ?_, ?_⟩
  · rcases h.clears with ha | hb | ⟨ha, _⟩
    · exact .inl (hclean ha.captured)
    · exact .inr (.inl hb)
    · exact .inl (hclean ha.captured)
  · rintro rfl
    refine ⟨fun hp => absurd hp (by rw [hx.not_prim]; simp), fun hp => ?_⟩
    exact absurd List.mem_cons_self ((h.faces rfl).2 hp (.captured i))

/-- The components in the place of arrays. -/
theorem component {x y : Ty} (h : s.Tidy k U μ (.array x) (.array y)) (hx : x.isPrim = false)
    (hy : y.isPrim = false) : s.Tidy k U μ x y := by
  refine ⟨h.left.component, h.right.component, h.leftKnown, h.rightKnown, ?_, fun _ => ?_⟩
  · rcases h.clears with ha | hb | ⟨ha, hb, hk | ⟨v, hv⟩ | ⟨v, hv⟩⟩
    · exact .inl ha
    · exact .inr (.inl hb)
    · exact .inr (.inr ⟨ha, hb, .inl hk⟩)
    · cases hv
    · cases hv
  · exact ⟨fun hp => absurd hp (by rw [hx]; simp), fun hp => absurd hp (by rw [hy]; simp)⟩

end Setting.Tidy

namespace Setting

open Query Inference

variable {s : Setting} {k : Fragment} {U : TypeVar → Prop} {μ : Marks} {m m' : Memory} {a b : Ty}
  {v : Verdict}

/-- What a comparison breaks into is tidy. -/
theorem Breaks.tidy (hs : s.Regular k) (hg : m.scope.Grounded s k U μ) (hm : m.Tame s k)
    (ht : s.Tidy k U μ a b) (h : s.Breaks m a b v) :
    ∀ c ∈ v.claims, s.Tidy k U μ c.lhs c.rhs := by
  have hupper : ∀ i, μ.used i → (m.upper i).Regular s k ∧ (m.upper i).Known U μ.used ∧
      (μ.clean i → (m.upper i).Over μ.clean) := fun i hi =>
    ⟨(hm i).1 (hg.regular i hi).1, Ty.Known.shape_iff.1 (hg.known i hi).1,
      fun hc => Ty.Over.of_shape (hg.sound.closed i hc).1⟩
  have hlower : ∀ i, μ.used i → (m.lower i).Regular s k ∧ (m.lower i).Known U μ.used ∧
      (μ.clean i → (m.lower i).Over μ.clean) := fun i hi =>
    ⟨(hm i).2 (hg.regular i hi).2, Ty.Known.shape_iff.1 (hg.known i hi).2,
      fun hc => Ty.Over.of_shape (hg.sound.closed i hc).2⟩
  intro c hc
  cases h with
  | members a st ms =>
    obtain ⟨t, ht', rfl⟩ := List.mem_map.1 hc
    exact (ht.symm.member ht').symm
  | top st hb =>
    rw [Verdict.claims, List.mem_singleton] at hc
    subst hc
    exact ht.closed_left (Ty.regular_object hs) rfl
  | member st hne hb hvar =>
    obtain ⟨t, ht', rfl⟩ := List.mem_map.1 hc
    exact ht.member ht'
  | memberUnknown st w hne =>
    rcases List.mem_append.1 hc with hc | hc
    · obtain ⟨t, ht', rfl⟩ := List.mem_map.1 hc
      exact ht.member ht'
    · rw [List.mem_singleton] at hc
      subst hc
      exact (ht.symm.closed_left (by rw [Ty.Regular]; trivial) rfl).symm
  | memberCaptured st i hne =>
    rcases List.mem_append.1 hc with hc | hc
    · obtain ⟨t, ht', rfl⟩ := List.mem_map.1 hc
      exact ht.member ht'
    · rw [List.mem_singleton] at hc
      subst hc
      obtain ⟨hr, hk, hcl⟩ := hlower i ht.rightKnown.captured
      exact (ht.symm.bound hr hk hcl).symm
  | @captured i j hne =>
    simp only [Verdict.claims, List.mem_cons, List.not_mem_nil, or_false] at hc
    rcases hc with rfl | rfl
    · obtain ⟨hr, hk, hcl⟩ := hupper i ht.leftKnown.captured
      exact ht.bound hr hk hcl
    · obtain ⟨hr, hk, hcl⟩ := hlower j ht.rightKnown.captured
      exact (ht.symm.bound hr hk hcl).symm
  | upper i hb hvar =>
    rw [Verdict.claims, List.mem_singleton] at hc
    subst hc
    obtain ⟨hr, hk, hcl⟩ := hupper i ht.leftKnown.captured
    exact ht.bound hr hk hcl
  | lower i ha hvar =>
    rw [Verdict.claims, List.mem_singleton] at hc
    subst hc
    obtain ⟨hr, hk, hcl⟩ := hlower i ht.rightKnown.captured
    exact (ht.symm.bound hr hk hcl).symm
  | component hx hy =>
    rw [Verdict.claims, List.mem_singleton] at hc
    subst hc
    exact ht.component hx hy
  | _ => exact absurd hc List.not_mem_nil

/-- The shape of an argument has its variables. -/
theorem Arg.mem_vars_shape {x : Arg} {w : Var} : w ∈ x.shape.vars ↔ w ∈ x.vars := by
  rw [Arg.shape, Arg.vars_rebuild, List.mem_flatMap]
  simp [Ty.vars]

/-- The variables of the arguments found occur in the arguments, or are new. -/
theorem Meets.vars (hs : s.Regular k) {x y : Nominal} {cs : List Arg} {l : Lineage}
    (h : s.Meets k m x y cs m') (hx : s.Takes k x.decl l x.args) :
    ∀ c ∈ cs, ∀ w ∈ c.vars, (∃ z ∈ x.args, w ∈ z.vars) ∨ Scope.New m.scope m'.scope w := by
  intro c hc w hw
  have hargs : ∀ c ∈ captureArgs m.scope.last (x.args.map Arg.shape), ∀ w ∈ c.vars,
      (∃ z ∈ x.args, w ∈ z.vars) ∨ Scope.New m.scope m'.scope w := by
    intro c hc w hw
    rw [h.scope]
    refine (Scope.vars_captureArgs s m.scope x.decl hc hw).imp_left ?_
    rintro ⟨z, hz, hw⟩
    obtain ⟨z', hz', rfl⟩ := List.mem_map.1 hz
    exact ⟨z', hz', Arg.mem_vars_shape.1 hw⟩
  have hfound := h.seen.regular hs (fits_captureArgs hx.shape m.scope.last)
    (regular_captureArgs hx.shape m.scope.last) hargs
  exact (hfound _ (List.mem_map_of_mem hc)).2 w (Arg.mem_vars_shape.2 hw)

/-- **Where applied declarations meet, the claims between the arguments are tidy.** -/
theorem Meets.tidy (hs : s.Regular k) (hg : m.scope.Grounded s k U μ) {x y : Nominal}
    {cs : List Arg} (ht : s.Tidy k U μ x.toTy y.toTy) (h : s.Meets k m x y cs m') :
    ∃ ν, μ.Le ν ∧ m'.scope.Grounded s k U ν ∧
      ∀ c ∈ Claim.ofArgs cs y.args, s.Tidy k U ν c.lhs c.rhs := by
  obtain ⟨l, hx⟩ := takes_of_regular ht.left.nominal
  have hvars := h.vars hs hx
  have hy := ht.right.nominal
  rw [Ty.Regular] at hy
  have hyreg := Arg.regularAll_iff.1 hy.2
  have hxvars : ∀ z ∈ x.args, ∀ w ∈ z.vars, w ∈ x.toTy.vars := fun z hz w hw => by
    rw [Nominal.toTy, Ty.vars, Arg.mem_varsAll]
    exact ⟨z, hz, hw⟩
  have hyvars : ∀ z ∈ y.args, ∀ t ∈ z.parts, ∀ w ∈ t.vars, w ∈ y.toTy.vars := fun z hz t htz w hw => by
    rw [Nominal.toTy, Ty.vars, Arg.mem_varsAll]
    exact ⟨z, hz, Arg.mem_vars_of_parts htz hw⟩
  -- it is enough to say which of the new variables are clean
  have hmarks : ∀ C : Nat → Prop, m'.scope.Sound s k C →
      (∀ i, C i → Scope.widen μ.used m.scope m'.scope i) → (∀ i, μ.clean i → C i) →
      ((∀ v, ¬ U v) → ∀ i, Scope.widen μ.used m.scope m'.scope i → C i) →
      (∀ c ∈ cs, ∀ t ∈ c.parts, ∀ z ∈ y.args, ∀ t' ∈ z.parts,
        Marks.Clears ⟨Scope.widen μ.used m.scope m'.scope, C⟩ k U t t') →
      ∃ ν, μ.Le ν ∧ m'.scope.Grounded s k U ν ∧
        ∀ c ∈ Claim.ofArgs cs y.args, s.Tidy k U ν c.lhs c.rhs := by
    intro C hC hsub hle hclosed hclears
    refine ⟨⟨Scope.widen μ.used m.scope m'.scope, C⟩, ⟨fun _ => .inl, hle⟩, ?_, fun c hc => ?_⟩
    · rw [h.scope] at hC hsub hclosed ⊢
      refine hg.capture hs hx.shape (fun z hz w hw => ?_) hC hsub hclosed
      obtain ⟨z', hz', rfl⟩ := List.mem_map.1 hz
      exact ht.leftKnown w (hxvars z' hz' w (Arg.mem_vars_shape.1 hw))
    · have hpair : ∀ c ∈ cs, ∀ t ∈ c.parts, ∀ z ∈ y.args, ∀ t' ∈ z.parts,
          s.Tidy k U ⟨Scope.widen μ.used m.scope m'.scope, C⟩ t t' := by
        intro c hc t htc z hz t' htz
        refine .of_regular ((h.regular c hc).parts htc) ((hyreg z hz).parts htz) (fun w hw => ?_)
          (fun w hw => ?_) (hclears c hc t htc z hz t' htz)
        · rcases hvars c hc w (Arg.mem_vars_of_parts htc hw) with ⟨z', hz', hw'⟩ | hnew
          · exact (ht.leftKnown w (hxvars z' hz' w hw')).imp_right
              (Exists.imp fun i hi => ⟨hi.1, .inl hi.2⟩)
          · exact .inr hnew.widen
        · exact (ht.rightKnown w (hyvars z hz t' htz w hw)).imp_right
            (Exists.imp fun i hi => ⟨hi.1, .inl hi.2⟩)
      obtain ⟨c', hc', z, hz, ⟨h₁, h₂⟩ | ⟨h₁, h₂⟩⟩ := Claim.mem_ofArgs hc
      · exact hpair c' hc' _ h₁ z hz _ h₂
      · exact (hpair c' hc' _ h₂ z hz _ h₁).symm
  have hsound := hg.sound.mono h.grows.le
  by_cases hover : x.toTy.Over μ.clean
  · -- the left side is clean, and so are the variables captured there
    refine hmarks (Scope.widen μ.clean m.scope m'.scope) ?_ (fun i hi => hi.imp_left (hg.clean i))
      (fun _ => .inl) (fun hU i hi => hi.imp_left (hg.closed hU i))
      fun c hc t htc _ _ _ _ => .inl fun w hw => ?_
    · rw [h.scope]
      refine hg.sound.capture hs ⟨hx.shape, fun z hz w hw => ?_⟩
      obtain ⟨z', hz', rfl⟩ := List.mem_map.1 hz
      exact hover w (hxvars z' hz' w (Arg.mem_vars_shape.1 hw))
    · rcases hvars c hc w (Arg.mem_vars_of_parts htc hw) with ⟨z, hz, hw'⟩ | hnew
      · obtain ⟨i, hi, hC⟩ := hover w (hxvars z hz w hw')
        exact ⟨i, hi, .inl hC⟩
      · exact hnew.widen
  have hclosed : (∀ v, ¬ U v) → ∀ i, Scope.widen μ.used m.scope m'.scope i → μ.clean i :=
    fun hU => absurd (hg.over_clean hU ht.leftKnown) hover
  rcases ht.clears with hover' | hover | ⟨hxk, hyk, hk⟩
  · exact absurd hover' hover
  · refine hmarks μ.clean hsound (fun i hi => .inl (hg.clean i hi)) (fun _ => id) hclosed
      fun _ _ _ _ z hz t' htz => .inr (.inl fun w hw => ?_)
    exact hover w (hyvars z hz t' htz w hw)
  · rcases hk with hk | ⟨w, hw⟩ | ⟨w, hw⟩
    · refine hmarks μ.clean hsound (fun i hi => .inl (hg.clean i hi)) (fun _ => id) hclosed
        fun c hc t htc z hz t' htz => .inr (.inr ⟨fun w hw => ?_, fun w hw => ?_, .inl hk⟩)
      · rcases hvars c hc w (Arg.mem_vars_of_parts htc hw) with ⟨z', hz', hw'⟩ | ⟨i, _, hlt, hle⟩
        · exact hxk w (hxvars z' hz' w hw')
        · -- nothing is captured in the plain fragment
          have hnone : (x.args.map Arg.shape).countP Arg.isWild = 0 := by
            rw [List.countP_eq_zero]
            intro z hz hwild
            have hz := hx.shape.regular z hz
            cases z with
            | type _ => cases hwild
            | wild _ _ =>
              rw [Arg.Regular, hk] at hz
              cases hz.1
          rw [h.scope] at hle
          have hle' : i ≤ m.scope.last + (x.args.map Arg.shape).countP Arg.isWild := hle
          omega
      · exact hyk w (hyvars z hz t' htz w hw)
    · cases hw
    · cases hw

/-- What a comparison splits into is tidy, with what was captured marked. -/
theorem Splits.tidy (hs : s.Regular k) (hm : m.Faithful s) (hg : m.scope.Grounded s k U μ)
    (htame : m.Tame s k) (ht : s.Tidy k U μ a b) (h : s.Splits k m m' a b v) :
    ∃ ν, μ.Le ν ∧ m'.scope.Grounded s k U ν ∧ ∀ c ∈ v.claims, s.Tidy k U ν c.lhs c.rhs := by
  have hg' := hg.mono (h.grows hm).le
  cases h with
  | meets h => exact h.tidy hs hg ht
  | breaks hm' hb =>
    subst hm'
    exact ⟨μ, .refl μ, hg, hb.tidy hs hg htame ht⟩
  | always _ _ _ => exact ⟨μ, .refl μ, hg', fun c hc => absurd hc List.not_mem_nil⟩
  | apart _ _ => exact ⟨μ, .refl μ, hg', fun c hc => absurd hc List.not_mem_nil⟩

/-- What an equality asks for is tidy. -/
theorem Equates.tidy (ht : s.Tidy k U μ a b) (h : Equates a b v) :
    ∀ c ∈ v.claims, s.Tidy k U μ c.lhs c.rhs := by
  intro c hc
  cases h with
  | ways =>
    simp only [Verdict.claims, List.mem_cons, List.not_mem_nil, or_false] at hc
    rcases hc with rfl | rfl <;> exact ht
  | apart _ => exact absurd hc List.not_mem_nil
  | @args sa sb d as bs hlen hwa hwb =>
    have ha := ht.left.nominal
    have hb := ht.right.nominal
    rw [Ty.Regular] at ha hb
    have hpair : ∀ x ∈ as, ∀ t ∈ x.parts, ∀ y ∈ bs, ∀ t' ∈ y.parts, s.Tidy k U μ t t' := by
      intro x hx t htx y hy t' hty
      have hsubx : ∀ w ∈ t.vars, w ∈ (Ty.nominal sa d as).vars := fun w hw => by
        rw [Ty.vars, Arg.mem_varsAll]
        exact ⟨x, hx, Arg.mem_vars_of_parts htx hw⟩
      have hsuby : ∀ w ∈ t'.vars, w ∈ (Ty.nominal sb d bs).vars := fun w hw => by
        rw [Ty.vars, Arg.mem_varsAll]
        exact ⟨y, hy, Arg.mem_vars_of_parts hty hw⟩
      refine .of_regular ((Arg.regularAll_iff.1 ha.2 x hx).parts htx)
        ((Arg.regularAll_iff.1 hb.2 y hy).parts hty) (fun w hw => ht.leftKnown w (hsubx w hw))
        (fun w hw => ht.rightKnown w (hsuby w hw)) ?_
      rcases ht.clears with h | h | ⟨h₁, h₂, hk | ⟨w, hw⟩ | ⟨w, hw⟩⟩
      · exact .inl fun w hw => h w (hsubx w hw)
      · exact .inr (.inl fun w hw => h w (hsuby w hw))
      · exact .inr (.inr ⟨fun w hw => h₁ w (hsubx w hw), fun w hw => h₂ w (hsuby w hw), .inl hk⟩)
      · cases hw
      · cases hw
    obtain ⟨x, hx, y, hy, ⟨h₁, h₂⟩ | ⟨h₁, h₂⟩⟩ := Claim.mem_ofArgs hc
    · exact hpair x hx _ h₁ y hy _ h₂
    · exact (hpair x hx _ h₂ y hy _ h₁).symm

/-- **Reductions keep constraints tidy**, with more variables marked. -/
theorem Resolves.tidy (hs : s.Regular k) (hm : m.Faithful s) (hg : m.scope.Grounded s k U μ)
    (htame : m.Tame s k) {c : Claim} (ht : s.Tidy k U μ c.lhs c.rhs) (h : s.Resolves k m m' c v) :
    ∃ ν, μ.Le ν ∧ m'.scope.Grounded s k U ν ∧ ∀ d ∈ v.claims, s.Tidy k U ν d.lhs d.rhs := by
  cases h with
  | below h => exact h.tidy hs hm hg htame ht
  | equal hm' h =>
    subst hm'
    exact ⟨μ, .refl μ, hg, h.tidy ht⟩
  | above h => exact h.tidy hs hm hg htame ht.symm

end Setting
end Generics
