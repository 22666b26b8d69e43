/-
# Subtyping decides the derivations

If the comparison of two types answers, it says whether the first is below the second by the
rules (`Setting.below_decides`). The comparison tries the rules in an order, takes shortcuts for
equal types, and does not go through the bound of a variable twice on one way; none of this
changes the answer:

- equal types are below each other, since regular types are below themselves;
- a way through bounds that comes back to a variable would mean that the variable is bounded by
  itself, so the check for that never strikes (`Trail.Clear`);
- variables captured on the way do not matter afterwards, since a larger scope derives the same.
-/

import Generics.Proofs.Meetings

namespace Generics

/-! ### Equal types -/

/-- A type is below itself at once. -/
theorem Setting.belowWithin_self (s : Setting) (depth : Nat) (trail : Trail) (a : Ty) :
    s.belowWithin (depth + 1) trail a a = pure true := by
  rw [Setting.belowWithin.eq_def]
  dsimp only
  split
  · rfl
  · rw [if_pos rfl]

/-- The type of null is below every type at once. -/
theorem Setting.belowWithin_of_null (s : Setting) (depth : Nat) (trail : Trail) (b : Ty) :
    s.belowWithin (depth + 1) trail .null b = pure true := by
  rw [Setting.belowWithin.eq_def]
  dsimp only
  rw [if_pos rfl]

mutual
/-- **Types that compare equal have the same shape**, if their variables are told apart by their
keys. -/
theorem Ty.shape_eq_of_sameShape :
    ∀ {a b : Ty}, a.sameShape b = true →
      (∀ v ∈ a.vars, ∀ w ∈ b.vars, v.key = w.key → v = w) → a.shape = b.shape
  | .prim p, b, h, _ => by
    cases b <;> simp [Ty.sameShape] at h
    rw [h]
  | .null, b, h, _ => by
    cases b <;> simp [Ty.sameShape] at h
    rfl
  | .nominal st d as, b, h, hv => by
    cases b <;> simp [Ty.sameShape] at h
    rw [Ty.shape, Ty.shape, Ty.rebuild, Ty.rebuild, h.1,
      Arg.shape_eq_of_sameShapeAll h.2 (by simpa only [Ty.vars] using hv)]
  | .array e, b, h, hv => by
    cases b <;> simp [Ty.sameShape] at h
    rw [Ty.shape_array, Ty.shape_array,
      Ty.shape_eq_of_sameShape h (by simpa only [Ty.vars] using hv)]
  | .inter st ms, b, h, hv => by
    cases b <;> simp [Ty.sameShape] at h
    rw [Ty.shape, Ty.shape, Ty.rebuild, Ty.rebuild,
      Ty.shape_eq_of_sameShapeAll h (by simpa only [Ty.vars] using hv)]
  | .var v, b, h, hv => by
    cases b <;> simp [Ty.sameShape] at h
    rw [hv v (by simp [Ty.vars]) _ (by simp [Ty.vars]) h]

/-- Arguments of the same shape are rebuilt alike, if keys tell their variables apart. -/
theorem Arg.shape_eq_of_sameShape :
    ∀ {a b : Arg}, a.sameShape b = true →
      (∀ v ∈ a.vars, ∀ w ∈ b.vars, v.key = w.key → v = w) → a.rebuild .var = b.rebuild .var
  | .type t, b, h, hv => by
    cases b <;> simp [Arg.sameShape] at h
    exact congrArg Arg.type (Ty.shape_eq_of_sameShape h (by simpa only [Arg.vars] using hv))
  | .wild u l, b, h, hv => by
    cases b <;> simp [Arg.sameShape] at h
    simp only [Arg.vars, List.mem_append] at hv
    have hu := Ty.shape_eq_of_sameShape h.1 fun v hv' w hw => hv v (.inl hv') w (.inl hw)
    have hl := Ty.shape_eq_of_sameShape h.2 fun v hv' w hw => hv v (.inr hv') w (.inr hw)
    rw [Arg.rebuild, Arg.rebuild]
    exact congr (congrArg Arg.wild hu) hl

/-- Types of the same shapes are rebuilt alike, if keys tell their variables apart. -/
theorem Ty.shape_eq_of_sameShapeAll :
    ∀ {as bs : List Ty}, Ty.sameShapeAll as bs = true →
      (∀ v ∈ Ty.varsAll as, ∀ w ∈ Ty.varsAll bs, v.key = w.key → v = w) →
        Ty.rebuildParts .var as = Ty.rebuildParts .var bs
  | [], bs, h, _ => by
    cases bs <;> simp [Ty.sameShapeAll] at h
    rfl
  | a :: as, bs, h, hv => by
    cases bs <;> simp [Ty.sameShapeAll] at h
    simp only [Ty.varsAll, List.mem_append] at hv
    have ha := Ty.shape_eq_of_sameShape h.1 fun v hv' w hw => hv v (.inl hv') w (.inl hw)
    have has := Ty.shape_eq_of_sameShapeAll h.2 fun v hv' w hw => hv v (.inr hv') w (.inr hw)
    rw [Ty.shape, Ty.shape] at ha
    rw [Ty.rebuildParts, Ty.rebuildParts, ha, has]

/-- Arguments of the same shapes are rebuilt alike, if keys tell their variables apart. -/
theorem Arg.shape_eq_of_sameShapeAll :
    ∀ {as bs : List Arg}, Arg.sameShapeAll as bs = true →
      (∀ v ∈ Arg.varsAll as, ∀ w ∈ Arg.varsAll bs, v.key = w.key → v = w) →
        Arg.rebuildAll .var as = Arg.rebuildAll .var bs
  | [], bs, h, _ => by
    cases bs <;> simp [Arg.sameShapeAll] at h
    rfl
  | a :: as, bs, h, hv => by
    cases bs <;> simp [Arg.sameShapeAll] at h
    simp only [Arg.varsAll, List.mem_append] at hv
    have ha := Arg.shape_eq_of_sameShape h.1 fun v hv' w hw => hv v (.inl hv') w (.inl hw)
    have has := Arg.shape_eq_of_sameShapeAll h.2 fun v hv' w hw => hv v (.inr hv') w (.inr hw)
    rw [Arg.rebuildAll, Arg.rebuildAll, ha, has]
end

/-- Equal types over variables that are told apart by number have one shape. -/
theorem Ty.Over.shape_eq {C : Nat → Prop} {a b : Ty} (h : a.equal b = true) (ha : a.Over C)
    (hb : b.Over C) : a.shape = b.shape := by
  rw [Ty.equal, Bool.and_eq_true] at h
  refine Ty.shape_eq_of_sameShape h.2 fun v hv w hw hkey => ?_
  obtain ⟨i, rfl, _⟩ := ha v hv
  obtain ⟨j, rfl, _⟩ := hb w hw
  injection hkey with hkey
  rw [hkey]

/-! ### Ways through bounds -/

/-- Every variable that stands bare in the type is below the variables whose bounds on the given
side were gone through. -/
def Trail.Clear (Γ : Scope) (side : Side) (trail : Trail) (t : Ty) : Prop :=
  ∀ key, (key, side) ∈ trail → ∀ i, Ty.var (.captured i) ∈ t.conjuncts →
    ∃ j, key = .captured j ∧ Relation.TransGen Γ.Bare i j

namespace Trail.Clear

variable {Γ : Scope} {side : Side} {trail : Trail} {t : Ty}

/-- Before any bound was gone through, every type is clear. -/
theorem nil (Γ : Scope) (side : Side) (t : Ty) : Clear Γ side [] t :=
  fun _ h => absurd h List.not_mem_nil

/-- A type without bare variables needs no care. -/
theorem of_no_var (h : ∀ i, Ty.var (.captured i) ∉ t.conjuncts) : Clear Γ side trail t :=
  fun _ _ i hi => absurd hi (h i)

/-- A type that has no other conjuncts is clear as well. -/
theorem of_subset {u : Ty} (h : Clear Γ side trail t) (hu : ∀ c ∈ u.conjuncts, c ∈ t.conjuncts) :
    Clear Γ side trail u :=
  fun key hkey i hi => h key hkey i (hu _ hi)

/-- Entries for the other side do not matter. -/
theorem cons_other {other : Side} (h : Clear Γ side trail t) (hne : other ≠ side) (key : VarKey) :
    Clear Γ side ((key, other) :: trail) t := by
  intro key' hkey' i hi
  rcases List.mem_cons.1 hkey' with heq | hmem
  · injection heq with _ hside
    exact absurd hside.symm hne
  · exact h key' hmem i hi

/-- Going through a bound of a variable. -/
theorem cons {i : Nat} (h : Clear Γ side trail (.var (.captured i)))
    (ht : ∀ j, Ty.var (.captured j) ∈ t.conjuncts → Γ.Bare j i) :
    Clear Γ side ((.captured i, side) :: trail) t := by
  intro key hkey j hj
  have hbare := ht j hj
  rcases List.mem_cons.1 hkey with heq | hmem
  · injection heq with heq _
    exact ⟨i, heq, .single hbare⟩
  · obtain ⟨j', rfl, htrans⟩ := h key hmem i List.mem_cons_self
    exact ⟨j', rfl, .head hbare htrans⟩

end Trail.Clear

/-- No variable on which a scope is in order leads back to itself. -/
theorem Scope.Sound.irrefl {s : Setting} {k : Fragment} {Γ : Scope} {C : Nat → Prop}
    (h : Γ.Sound s k C) {i : Nat} (hi : C i) : ¬ Relation.TransGen Γ.Bare i i := by
  have hacc : Acc (Relation.TransGen Γ.Bare) i := (h.ranked i hi).transGen
  intro hloop
  induction hacc with
  | intro i _ ih => exact ih i hloop hi hloop

/-- The bound of a captured variable that is clear has not been gone through. -/
theorem Trail.Clear.not_contains {s : Setting} {k : Fragment} {Γ : Scope} {C : Nat → Prop}
    {side : Side} {trail : Trail} {i : Nat} (h : Trail.Clear Γ side trail (.var (.captured i)))
    (hΓ : Γ.Sound s k C) (hi : C i) : trail.contains ((Var.captured i).key, side) = false := by
  rw [List.contains_eq_mem, decide_eq_false_iff_not]
  intro hmem
  obtain ⟨j, hj, htrans⟩ := h _ hmem i List.mem_cons_self
  injection hj with hj
  exact hΓ.irrefl hi (hj ▸ htrans)

/-! ### The comparison -/

/-- The memory is faithful, its scope is larger than the given one, and its bounds are flat. -/
structure Memory.Within (s : Setting) (k : Fragment) (Γ : Scope) (m : Memory) : Prop where
  faithful : m.Faithful s
  le : Γ.Le m.scope
  tame : m.Tame s k

/-- A larger memory is within the same scope. -/
theorem Memory.Within.grows {s : Setting} {k : Fragment} {Γ : Scope} {m m' : Memory}
    (h : m.Within s k Γ) (hg : m.Grows s k m') : m'.Within s k Γ :=
  ⟨hg.faithful, h.le.trans hg.le, hg.tame h.tame⟩

/-- A type is over the variables that its shape is over. -/
theorem Ty.Over.of_shape {C : Nat → Prop} {t : Ty} (h : t.shape.Over C) : t.Over C := by
  intro v hv
  exact h v (by rwa [Ty.vars_shape])

namespace Memory.Within

variable {s : Setting} {k : Fragment} {Γ : Scope} {C : Nat → Prop} {m : Memory}

/-- The upper bound in the memory looks like the one in the scope. -/
theorem upper (h : m.Within s k Γ) (hΓ : Γ.Sound s k C) {i : Nat} (hi : C i) :
    (m.upper i).shape = Γ.upper i := h.le.upper i (hΓ.le_last i hi)

/-- The lower bound in the memory looks like the one in the scope. -/
theorem lower (h : m.Within s k Γ) (hΓ : Γ.Sound s k C) {i : Nat} (hi : C i) :
    (m.lower i).shape = Γ.lower i := h.le.lower i (hΓ.le_last i hi)

/-- The upper bound in the memory is over the variables of the scope. -/
theorem over_upper (h : m.Within s k Γ) (hΓ : Γ.Sound s k C) {i : Nat} (hi : C i) :
    (m.upper i).Over C := Ty.Over.of_shape (by rw [h.upper hΓ hi]; exact (hΓ.closed i hi).1)

/-- The lower bound in the memory is over the variables of the scope. -/
theorem over_lower (h : m.Within s k Γ) (hΓ : Γ.Sound s k C) {i : Nat} (hi : C i) :
    (m.lower i).Over C := Ty.Over.of_shape (by rw [h.lower hΓ hi]; exact (hΓ.closed i hi).2)

/-- The upper bound in the memory is regular. -/
theorem regular_upper (h : m.Within s k Γ) (hΓ : Γ.Sound s k C) {i : Nat} (hi : C i) :
    (m.upper i).Regular s k := (h.tame i).1 (by rw [h.upper hΓ hi]; exact (hΓ.regular i hi).1)

/-- The lower bound in the memory is regular. -/
theorem regular_lower (h : m.Within s k Γ) (hΓ : Γ.Sound s k C) {i : Nat} (hi : C i) :
    (m.lower i).Regular s k := (h.tame i).2 (by rw [h.lower hΓ hi]; exact (hΓ.regular i hi).2)

/-- A variable that stands bare in the upper bound does so in the scope. -/
theorem bare_upper (h : m.Within s k Γ) (hΓ : Γ.Sound s k C) {i : Nat} (hi : C i) {j : Nat}
    (hj : Ty.var (.captured j) ∈ (m.upper i).conjuncts) : Γ.Bare j i := by
  left
  rw [← h.upper hΓ hi, Ty.conjuncts_shape (h.regular_upper hΓ hi)]
  exact List.mem_map_of_mem hj

/-- A variable that stands bare in the lower bound does so in the scope. -/
theorem bare_lower (h : m.Within s k Γ) (hΓ : Γ.Sound s k C) {i : Nat} (hi : C i) {j : Nat}
    (hj : Ty.var (.captured j) ∈ (m.lower i).conjuncts) : Γ.Bare j i := by
  right
  rw [← h.lower hΓ hi, Ty.conjuncts_shape (h.regular_lower hΓ hi)]
  exact List.mem_map_of_mem hj

end Memory.Within

namespace Query.Decides

variable {s : Setting} {I : Memory → Prop} {P : Prop} {f : Ty → Query Bool}

/-- A question that goes on with an upper bound decides what it does with the bound in memory. -/
theorem bind_upper {i : Nat} (h : ∀ m, I m → Decides I (f (m.upper i)) P) :
    Decides I (s.upper (.captured i) >>= f) P := by
  intro m r m' hm hr
  obtain ⟨t, m₁, ht, hr⟩ := answers_bind.1 hr
  obtain ⟨m₀, m₂, hget, ht⟩ := answers_bind.1 ht
  obtain ⟨rfl, rfl⟩ := answers_get.1 hget
  obtain ⟨rfl, rfl⟩ := answers_pure.1 ht
  exact h _ hm _ r m' hm hr

/-- A question that goes on with a lower bound decides what it does with the bound in memory. -/
theorem bind_lower {i : Nat} (h : ∀ m, I m → Decides I (f (m.lower i)) P) :
    Decides I (s.lower (.captured i) >>= f) P := by
  intro m r m' hm hr
  obtain ⟨t, m₁, ht, hr⟩ := answers_bind.1 hr
  obtain ⟨m₀, m₂, hget, ht⟩ := answers_bind.1 ht
  obtain ⟨rfl, rfl⟩ := answers_get.1 hget
  obtain ⟨rfl, rfl⟩ := answers_pure.1 ht
  exact h _ hm _ r m' hm hr

end Query.Decides

namespace Setting

open Query

variable {s : Setting} {k : Fragment} {Γ : Scope} {C : Nat → Prop} {trail : Trail} {a b : Ty}
  {sub : Ty → Ty → Query Bool} {depth : Nat}

/-- The types can be compared: each is a primitive or regular, over variables on which the scope
is in order. -/
structure Comparable (s : Setting) (k : Fragment) (Γ : Scope) (C : Nat → Prop) (a b : Ty) :
    Prop where
  sound : Γ.Sound s k C
  left : a.Whole s k
  right : b.Whole s k
  leftOver : a.Over C
  rightOver : b.Over C

/-- A comparison decides the derivations for all types that can be compared. -/
def DecidesBelow (s : Setting) (k : Fragment) (sub : Ty → Ty → Query Bool) : Prop :=
  ∀ Γ C a b, s.Comparable k Γ C a b →
    Decides (Memory.Within s k Γ) (sub a b) (Below s Γ a.shape b.shape)

/-- A whole type is below itself by a derivation. -/
theorem Whole.refl (hs : s.Regular k) (hΓ : Γ.Sound s k C) (ha : a.Whole s k) (ho : a.Over C) :
    Below s Γ a.shape a.shape := by
  rcases ha with ha | ha
  · cases a with
    | prim p => exact .prim Γ p
    | _ => cases ha
  · exact Below.refl_self hs ha hΓ ho

/-- Comparing in both directions decides whether there are derivations in both. -/
theorem equivalentBy_decides (hs : s.Regular k) (hsub : s.DecidesBelow k sub)
    (h : s.Comparable k Γ C a b) :
    Decides (Memory.Within s k Γ) (equivalentBy sub a b)
      (Below s Γ a.shape b.shape ∧ Below s Γ b.shape a.shape) := by
  unfold equivalentBy
  split
  · next heq =>
    have hself := Whole.refl hs h.sound h.left h.leftOver
    have hshape := Ty.Over.shape_eq heq h.leftOver h.rightOver
    exact .pure_true ⟨hshape ▸ hself, hshape ▸ hself⟩
  · exact (hsub Γ C a b h).both fun _ =>
      hsub Γ C b a ⟨h.sound, h.right, h.left, h.rightOver, h.leftOver⟩

/-- The demands on an argument found that is no wildcard. -/
theorem containsBy_decides (hs : s.Regular k) (hsub : s.DecidesBelow k sub) (hΓ : Γ.Sound s k C)
    {asked found : Arg} (hwild : found.isWild = false)
    (hfound : ∀ t ∈ found.parts, t.Regular s k ∧ t.Over C)
    (hasked : ∀ t ∈ asked.parts, t.Regular s k ∧ t.Over C) :
    Decides (Memory.Within s k Γ) (containsBy sub asked found)
      (∀ x ∈ found.shape.demands asked.shape, Below s Γ x.1 x.2) := by
  cases found with
  | wild u l => cases hwild
  | type t =>
    obtain ⟨ht, hto⟩ := hfound t List.mem_cons_self
    cases asked with
    | type t' =>
      obtain ⟨ht', hto'⟩ := hasked t' List.mem_cons_self
      exact (equivalentBy_decides hs hsub ⟨hΓ, ht.whole, ht'.whole, hto, hto'⟩).congr
        (by simp [Arg.demands])
    | wild u l =>
      obtain ⟨hu, huo⟩ := hasked u List.mem_cons_self
      obtain ⟨hl, hlo⟩ := hasked l (List.mem_cons_of_mem _ List.mem_cons_self)
      exact ((hsub Γ C l t ⟨hΓ, hl.whole, ht.whole, hlo, hto⟩).both fun _ =>
        hsub Γ C t u ⟨hΓ, ht.whole, hu.whole, hto, huo⟩).congr (by simp [Arg.demands])

/-- Whether found arguments are contained in those asked for is decided by their parts. -/
theorem containsAllBy_decides (hs : s.Regular k) (hsub : s.DecidesBelow k sub)
    (hΓ : Γ.Sound s k C) {asked found : List Arg} (hlen : found.length = asked.length)
    (hwild : ∀ c ∈ found, c.isWild = false)
    (hfound : ∀ c ∈ found, ∀ t ∈ c.parts, t.Regular s k ∧ t.Over C)
    (hasked : ∀ c ∈ asked, ∀ t ∈ c.parts, t.Regular s k ∧ t.Over C) :
    Decides (Memory.Within s k Γ) (containsAllBy sub asked found)
      (∀ x ∈ Arg.demandsAll (found.map Arg.shape) (asked.map Arg.shape), Below s Γ x.1 x.2) := by
  induction found generalizing asked with
  | nil =>
    cases asked with
    | nil => exact .pure_true (by simp [Arg.demandsAll])
    | cons _ _ => simp at hlen
  | cons c found ih =>
    cases asked with
    | nil => simp at hlen
    | cons d asked =>
      refine ((containsBy_decides hs hsub hΓ (hwild c List.mem_cons_self)
        (hfound c List.mem_cons_self) (hasked d List.mem_cons_self)).both fun _ =>
          ih (by simpa using hlen) (fun c hc => hwild c (List.mem_cons_of_mem _ hc))
            (fun c hc => hfound c (List.mem_cons_of_mem _ hc))
            fun c hc => hasked c (List.mem_cons_of_mem _ hc)).congr ?_
      simp only [Arg.demandsAll, List.map_cons, List.zip_cons_cons, List.flatMap_cons,
        List.forall_mem_append]

/-- **Comparing applied declarations decides the derivations.** -/
theorem nominalBelowBy_decides (hs : s.Regular k) (hsub : s.DecidesBelow k sub) {x y : Nominal}
    (h : s.Comparable k Γ C x.toTy y.toTy) :
    Decides (Memory.Within s k Γ) (s.nominalBelowBy sub x y)
      (Below s Γ x.toTy.shape y.toTy.shape) := by
  intro m r m' hm hr
  rw [nominalBelowBy_eq] at hr
  obtain ⟨l, hsuits⟩ := suits_of_regular h.left.nominal h.leftOver
  obtain ⟨meet, m₁, hmeet, hr⟩ := answers_bind.1 hr
  obtain ⟨hnever, halways, hfound⟩ := meeting_answers hs hm.faithful hsuits.toTakes
    h.right.nominal hmeet
  have hiff := Below.le_iff hs h.sound hm.le h.left h.right h.leftOver h.rightOver
  cases meet with
  | never =>
    obtain ⟨rfl, rfl⟩ := answers_pure.1 hr
    obtain ⟨hg, hnot⟩ := hnever rfl
    exact ⟨hm.grows hg, by simp, fun hb => absurd (Below.canMeet (hiff.2 hb)) hnot⟩
  | always =>
    obtain ⟨rfl, rfl⟩ := answers_pure.1 hr
    obtain ⟨hst, hi, hnil⟩ := halways rfl
    refine ⟨hm.grows (hst.grows k), fun _ => ?_, by simp⟩
    rw [Nominal.toTy, Nominal.toTy, Ty.shape_nominal, Ty.shape_nominal, hnil]
    exact .raw hi
  | found cs =>
    have hmeets := hfound cs rfl
    -- the arguments are compared in the scope that was captured
    have hΓ₁ : m₁.scope.Sound s k (Scope.widen C m.scope m₁.scope) := by
      rw [hmeets.scope]
      exact (h.sound.mono hm.le).capture hs hsuits.shape
    have hcs := hmeets.seen.regular hs (fits_captureArgs hsuits.shape.toTakes m.scope.last)
      (regular_captureArgs hsuits.shape.toTakes m.scope.last) hsuits.shape.over_captureArgs
    have hdec := containsAllBy_decides hs hsub hΓ₁ hmeets.length
      (hmeets.isWild hs hsuits.shape.toTakes) (fun c hc t ht => ⟨(hmeets.regular c hc).parts ht, ?_⟩)
      (fun c hc t ht => ⟨?_, ?_⟩)
    · obtain ⟨hw, hiff'⟩ := hdec m₁ r m' ⟨hmeets.faithful, .refl _, hmeets.tame hm.tame⟩ hr
      refine ⟨⟨hw.faithful, (hm.le.trans hmeets.grows.le).trans hw.le, hw.tame⟩, ?_⟩
      rw [hiff', ← hmeets.below_iff, hiff]
    · intro v hv
      rw [hmeets.scope]
      have hmem : c.shape ∈ cs.map Arg.shape := List.mem_map_of_mem hc
      refine (hcs _ hmem).2 v ?_
      rw [Arg.shape, Arg.vars_rebuild, List.mem_flatMap]
      exact ⟨v, Arg.mem_vars_of_parts ht hv, by simp [Ty.vars]⟩
    · have hreg := h.right.nominal
      rw [Ty.Regular] at hreg
      exact (Arg.regularAll_iff.1 hreg.2 c hc).parts ht
    · exact (h.rightOver.arg hc ht).mono fun _ => .inl

/-- With nesting up to a depth, the comparison decides the derivations. -/
def DecidesWithin (s : Setting) (k : Fragment) (depth : Nat) : Prop :=
  ∀ trail Γ C a b, s.Comparable k Γ C a b → Trail.Clear Γ .upper trail a →
    Trail.Clear Γ .lower trail b →
      Decides (Memory.Within s k Γ) (s.belowWithin depth trail a b) (Below s Γ a.shape b.shape)

/-- Comparing with nothing gone through decides the derivations. -/
theorem DecidesWithin.below (h : s.DecidesWithin k depth) :
    s.DecidesBelow k (s.belowWithin depth []) :=
  fun Γ C a b hab => h [] Γ C a b hab (.nil Γ _ a) (.nil Γ _ b)

/-- The comparison with the lower bound of a variable on the right. -/
def descends (s : Setting) (depth : Nat) (trail : Trail) (a : Ty) : Ty → Query Bool
  | .var w =>
    if trail.contains (w.key, .lower) then pure false
    else do s.belowWithin depth ((w.key, .lower) :: trail) a (← s.lower w)
  | _ => pure false

/-- Two applied declarations are compared as such. -/
theorem belowWithin_nominal {depth : Nat} {trail : Trail} {sa sb : Site} {da db : String}
    {aa ab : List Arg} (hne : Ty.nominal sa da aa ≠ .nominal sb db ab) :
    s.belowWithin (depth + 1) trail (.nominal sa da aa) (.nominal sb db ab) =
      s.nominalBelowBy (s.belowWithin depth []) ⟨sa, da, aa⟩ ⟨sb, db, ab⟩ := by
  rw [belowWithin.eq_def]
  dsimp only
  rw [if_neg (by simp), if_neg hne]

/-- On the right of another type a variable is compared by its lower bound. -/
theorem belowWithin_to_var {depth : Nat} {trail : Trail} {w : Var} (hnull : a ≠ .null)
    (hinter : a.isInter = false) (hvar : ∀ v, a ≠ .var v) :
    s.belowWithin (depth + 1) trail a (.var w) = s.descends depth trail a (.var w) := by
  rw [belowWithin.eq_def]
  dsimp only
  rw [if_neg hnull, if_neg (hvar w)]
  cases a with
  | var v => exact absurd rfl (hvar v)
  | inter => cases hinter
  | _ => rfl

/-- On the right of an applied declaration a variable is compared by its lower bound. -/
theorem belowWithin_nominal_var (s : Setting) (depth : Nat) (trail : Trail) (sa : Site) (da : String)
    (aa : List Arg) (w : Var) : s.belowWithin (depth + 1) trail (.nominal sa da aa) (.var w) =
      s.descends depth trail (.nominal sa da aa) (.var w) := by
  rw [belowWithin.eq_def]
  dsimp only
  rw [if_neg (by simp), if_neg (by simp)]
  rfl

/-- On the left a variable is compared by its upper bound, unless this was gone through, and then as any
type is. -/
theorem belowWithin_var {depth : Nat} {trail : Trail} {v : Var} (hb : b.isInter = false)
    (hne : Ty.var v ≠ b) : s.belowWithin (depth + 1) trail (.var v) b =
      if (Ty.var v).equal b then pure true
      else if trail.contains (v.key, .upper) then s.descends depth trail (.var v) b
      else either (s.upper v >>= fun t => s.belowWithin depth ((v.key, .upper) :: trail) t b)
        (s.descends depth trail (.var v) b) := by
  rw [belowWithin.eq_def]
  dsimp only
  rw [if_neg (by simp), if_neg hne]
  cases b with
  | inter => cases hb
  | _ => rfl

/-- A type is compared with each member of an intersection. -/
theorem belowWithin_members {depth : Nat} {trail : Trail} {st : Site} {ms : List Ty} (hnull : a ≠ .null)
    (hne : a ≠ .inter st ms) : s.belowWithin (depth + 1) trail a (.inter st ms) =
      all (fun m => s.belowWithin depth trail a m) ms := by
  rw [belowWithin.eq_def]
  dsimp only
  rw [if_neg hnull, if_neg hne]
  cases a <;> rfl

/-- An empty intersection on the left is compared as the top declaration. -/
theorem belowWithin_top {depth : Nat} {trail : Trail} {st : Site} (hb : b.isInter = false) :
    s.belowWithin (depth + 1) trail (.inter st []) b = s.belowWithin depth trail .object b := by
  rw [belowWithin.eq_def]
  dsimp only
  rw [if_neg (by simp), if_neg (by rintro rfl; cases hb)]
  cases b with
  | inter => cases hb
  | _ => rfl

/-- An intersection on the left is compared by its members, and then as any type is. -/
theorem belowWithin_inter {depth : Nat} {trail : Trail} {st : Site} {c : Ty} {ms : List Ty}
    (hb : b.isInter = false) : s.belowWithin (depth + 1) trail (.inter st (c :: ms)) b =
      either (any (fun m => s.belowWithin depth trail m b) (c :: ms))
        (s.descends depth trail (.inter st (c :: ms)) b) := by
  rw [belowWithin.eq_def]
  dsimp only
  rw [if_neg (by simp), if_neg (by rintro rfl; cases hb)]
  cases b with
  | inter => cases hb
  | _ => rfl

/-- Two arrays are compared by their components. -/
theorem belowWithin_array {depth : Nat} {trail : Trail} {e e' : Ty} (hne : e ≠ e') :
    s.belowWithin (depth + 1) trail (.array e) (.array e') =
      arrayBelowBy (s.belowWithin depth []) e e' := by
  rw [belowWithin.eq_def]
  dsimp only
  rw [if_neg (by simp), if_neg (by simpa using hne)]

/-- An array is compared with a declaration by whether this is a parent of arrays. -/
theorem belowWithin_array_nominal (s : Setting) (depth : Nat) (trail : Trail) (e : Ty) (st : Site)
    (d : String) (as : List Arg) : s.belowWithin (depth + 1) trail (.array e) (.nominal st d as) =
      pure (s.isArrayParent d as) := by
  rw [belowWithin.eq_def]
  dsimp only
  rw [if_neg (by simp), if_neg (by simp)]

/-- Whether two types can only be below each other if they are equal: neither is a variable or an
intersection, the left one is not the type of null, and they are not two applied declarations, two
arrays, or an array and an applied declaration. -/
def unlike : Ty → Ty → Bool
  | .prim _, .prim _ => true
  | .prim _, .null => true
  | .prim _, .nominal _ _ _ => true
  | .prim _, .array _ => true
  | .nominal _ _ _, .prim _ => true
  | .nominal _ _ _, .null => true
  | .nominal _ _ _, .array _ => true
  | .array _, .prim _ => true
  | .array _, .null => true
  | _, _ => false

/-- Types that can only be equal are not below each other otherwise. -/
theorem belowWithin_unlike {depth : Nat} {trail : Trail} (hne : a ≠ b) (h : unlike a b = true) :
    s.belowWithin (depth + 1) trail a b = pure false := by
  have hequal : a.equal b = false := by
    cases a <;> cases b <;> simp_all [unlike, Ty.equal, Ty.sameShape]
  rw [belowWithin.eq_def]
  dsimp only
  rw [if_neg (by rintro rfl; simp [unlike] at h), if_neg hne, hequal]
  cases a <;> cases b <;> first | rfl | simp [unlike] at h

/-- Comparing with the lower bound of a variable decides whether a derivation goes through it. -/
theorem descends_decides (ih : s.DecidesWithin k depth) (h : s.Comparable k Γ C a b)
    (ha : Trail.Clear Γ .upper trail a) (hb : Trail.Clear Γ .lower trail b) :
    Decides (Memory.Within s k Γ) (s.descends depth trail a b)
      (∃ i, b = .var (.captured i) ∧ Below s Γ a.shape (Γ.lower i)) := by
  cases b with
  | var w =>
    obtain ⟨i, rfl, hi⟩ := h.rightOver w (by simp [Ty.vars])
    rw [descends, hb.not_contains h.sound hi, if_neg Bool.false_ne_true]
    refine Decides.bind_lower fun m hm => ?_
    refine (ih _ Γ C a (m.lower i) ⟨h.sound, h.left, (hm.regular_lower h.sound hi).whole, h.leftOver,
      hm.over_lower h.sound hi⟩ (ha.cons_other (by simp) _)
      (hb.cons fun j hj => hm.bare_lower h.sound hi hj)).congr ?_
    rw [hm.lower h.sound hi]
    simp
  | _ => exact .pure_false (by simp)

/-- The comparison of an intersection that is not empty with no intersection. -/
theorem inter_decides (ih : s.DecidesWithin k depth) {st : Site} {c : Ty}
    {ms : List Ty} (h : s.Comparable k Γ C (.inter st (c :: ms)) b) (hb : b.isInter = false)
    (hca : Trail.Clear Γ .upper trail (.inter st (c :: ms))) (hcb : Trail.Clear Γ .lower trail b) :
    Decides (Memory.Within s k Γ)
      (either (any (fun member => s.belowWithin depth trail member b) (c :: ms))
        (s.descends depth trail (.inter st (c :: ms)) b))
      (Below s Γ (Ty.inter st (c :: ms)).shape b.shape) := by
  have hms := h.left.members
  have hreg : (Ty.inter st (c :: ms)).Regular s k := h.left.resolve_left (by simp [Ty.isPrim])
  have hany : ∀ m ∈ c :: ms, Decides (Memory.Within s k Γ) (s.belowWithin depth trail m b)
      (Below s Γ m.shape b.shape) := by
    intro m hm
    obtain ⟨hflat, hm'⟩ := hms m hm
    refine ih trail Γ C m b ⟨h.sound, hm'.whole, h.right, h.leftOver.member hm, h.rightOver⟩ ?_ hcb
    refine hca.of_subset fun x hx => ?_
    rw [Ty.conjuncts_of_not_inter hflat, List.mem_singleton] at hx
    rw [hx]
    exact hm
  refine ((Decides.any hany).either (descends_decides ih h hca hcb)).congr ?_
  rw [Ty.shape_inter hreg, List.map_cons, Below.inter_left (by rw [Ty.isInter_shape]; exact hb),
    ← List.map_cons]
  refine or_congr ?_ ?_
  · constructor
    · rintro ⟨m, hm, hbelow⟩
      exact ⟨m.shape, List.mem_map_of_mem hm, hbelow⟩
    · rintro ⟨m', hm', hbelow⟩
      obtain ⟨m, hm, rfl⟩ := List.mem_map.1 hm'
      exact ⟨m, hm, hbelow⟩
  · constructor
    · rintro ⟨i, rfl, hbelow⟩
      exact ⟨i, rfl, hbelow⟩
    · rintro ⟨i, hi, hbelow⟩
      cases b with
      | var v => exact ⟨i, hi, hbelow⟩
      | inter st ms => cases hb
      | _ => cases hi

/-- The comparison of a variable with no intersection. -/
theorem var_decides (ih : s.DecidesWithin k depth) {i : Nat}
    (h : s.Comparable k Γ C (.var (.captured i)) b) (hb : b.isInter = false)
    (hca : Trail.Clear Γ .upper trail (.var (.captured i))) (hcb : Trail.Clear Γ .lower trail b) :
    Decides (Memory.Within s k Γ)
      (if (Ty.var (.captured i)).equal b then pure true
        else if trail.contains ((Var.captured i).key, .upper) then
          s.descends depth trail (.var (.captured i)) b
        else either
          (s.upper (.captured i) >>= fun t =>
            s.belowWithin depth (((Var.captured i).key, .upper) :: trail) t b)
          (s.descends depth trail (.var (.captured i)) b))
      (Below s Γ (.var (.captured i)) b.shape) := by
  have hi := h.leftOver.captured
  split
  · next heq =>
    refine .pure_true ?_
    rw [← Ty.Over.shape_eq heq h.leftOver h.rightOver]
    exact .refl Γ _
  · next hne =>
    rw [hca.not_contains h.sound hi, if_neg Bool.false_ne_true]
    have hup : Decides (Memory.Within s k Γ)
        (s.upper (.captured i) >>= fun t =>
          s.belowWithin depth (((Var.captured i).key, .upper) :: trail) t b)
        (Below s Γ (Γ.upper i) b.shape) := by
      refine Decides.bind_upper fun m hm => ?_
      refine (ih _ Γ C (m.upper i) b ⟨h.sound, (hm.regular_upper h.sound hi).whole, h.right,
        hm.over_upper h.sound hi, h.rightOver⟩ (hca.cons fun j hj => hm.bare_upper h.sound hi hj)
        (hcb.cons_other (by simp) _)).congr ?_
      rw [hm.upper h.sound hi]
    refine (hup.either (descends_decides ih h hca hcb)).congr ?_
    rw [Below.var_left (by rw [Ty.isInter_shape]; exact hb)]
    have hself : b.shape ≠ .var (.captured i) := by
      intro hbv
      cases b with
      | var v =>
        rw [Ty.shape_var] at hbv
        injection hbv with hbv
        subst hbv
        exact hne (by simp [Ty.equal, Ty.sameShape])
      | inter st ms => cases hb
      | _ => cases hbv
    constructor
    · rintro (hbelow | ⟨j, rfl, hbelow⟩)
      · exact .inr (.inl hbelow)
      · exact .inr (.inr ⟨j, rfl, hbelow⟩)
    · rintro (hbv | hbelow | ⟨j, hj, hbelow⟩)
      · exact absurd hbv hself
      · exact .inl hbelow
      · cases b with
        | var v => exact .inr ⟨j, hj, hbelow⟩
        | inter st ms => cases hb
        | _ => cases hj

/-- The comparison of arrays. -/
theorem arrayBelowBy_decides (hsub : s.DecidesBelow k sub)
    (h : s.Comparable k Γ C (.array a) (.array b)) :
    Decides (Memory.Within s k Γ) (arrayBelowBy sub a b)
      (Below s Γ (.array a.shape) (.array b.shape)) := by
  have hprim : ∀ t : Ty, t.shape.isPrim = t.isPrim := fun t => by cases t <;> rfl
  unfold arrayBelowBy
  split
  · next hp =>
    rw [Bool.or_eq_true] at hp
    refine .of_pure ?_
    rw [beq_iff_eq, Below.array_prim (by rwa [hprim, hprim])]
    constructor
    · rintro rfl
      rfl
    · intro hab
      rcases hp with hp | hp
      · cases a with
        | prim p => cases b <;> first | exact hab | cases hab
        | _ => cases hp
      · cases b with
        | prim p => cases a <;> first | exact hab | cases hab
        | _ => cases hp
  · next hp =>
    rw [Bool.or_eq_true, not_or, Bool.not_eq_true, Bool.not_eq_true] at hp
    refine (hsub Γ C a b ⟨h.sound, h.left.component, h.right.component, h.leftOver,
      h.rightOver⟩).congr ?_
    rw [Below.array_array ((hprim a).trans hp.1) ((hprim b).trans hp.2)]

/-- Whether an applied declaration is a parent of arrays is a matter of the shapes of its arguments. -/
theorem isArrayParent_map (e : String) (as : List Arg) :
    s.isArrayParent e (as.map Arg.shape) = s.isArrayParent e as := by
  cases as <;> rfl

/-- The comparison with an intersection on the right. -/
theorem all_decides (ih : s.DecidesWithin k depth) {st : Site} {ms : List Ty}
    (h : s.Comparable k Γ C a (.inter st ms)) (hca : Trail.Clear Γ .upper trail a)
    (hcb : Trail.Clear Γ .lower trail (.inter st ms)) :
    Decides (Memory.Within s k Γ) (all (fun member => s.belowWithin depth trail a member) ms)
      (Below s Γ a.shape (Ty.inter st ms).shape) := by
  have hms := h.right.members
  have hreg : (Ty.inter st ms).Regular s k := h.right.resolve_left (by simp [Ty.isPrim])
  refine (Decides.all fun m hm => ih trail Γ C a m ⟨h.sound, h.left, (hms m hm).2.whole,
    h.leftOver, h.rightOver.member hm⟩ hca (hcb.of_subset fun x hx => ?_)).congr ?_
  · rw [Ty.conjuncts_of_not_inter (hms m hm).1, List.mem_singleton] at hx
    rw [hx]
    exact hm
  · rw [Ty.shape_inter hreg, Below.inter_right]
    simp

/-- The comparison of an applied declaration, an array or a primitive with a variable. -/
theorem descends_var_decides (ih : s.DecidesWithin k depth) {w : Var}
    (h : s.Comparable k Γ C a (.var w)) (hca : Trail.Clear Γ .upper trail a)
    (hcb : Trail.Clear Γ .lower trail (.var w))
    (hvar : ∀ i, Below s Γ a.shape (.var (.captured i)) ↔ Below s Γ a.shape (Γ.lower i)) :
    Decides (Memory.Within s k Γ) (s.descends depth trail a (.var w))
      (Below s Γ a.shape (.var w)) := by
  refine (descends_decides ih h hca hcb).congr ?_
  obtain ⟨i, rfl, _⟩ := h.rightOver w (by simp [Ty.vars])
  rw [hvar]
  simp

/-- The comparison of types of different kinds that no rule relates. -/
theorem apart_decides (h : s.Comparable k Γ C a b) (hne : a.shape ≠ b.shape)
    (hnot : ¬Below s Γ a.shape b.shape) :
    Decides (Memory.Within s k Γ) (pure (a.equal b)) (Below s Γ a.shape b.shape) :=
  .of_pure ⟨fun heq => absurd (Ty.Over.shape_eq heq h.leftOver h.rightOver) hne,
    fun hbelow => absurd hbelow hnot⟩

/-- **The comparison decides the derivations**, as far as it answers. -/
theorem decidesWithin (hs : s.Regular k) (depth : Nat) : s.DecidesWithin k depth := by
  induction depth with
  | zero =>
    intro trail Γ C a b _ _ _ m r m' _ hr
    exact absurd hr answers_throw
  | succ depth ih =>
    intro trail Γ C a b h hca hcb
    rw [belowWithin.eq_def]
    dsimp only
    by_cases hnull : a = .null
    · rw [if_pos hnull, hnull]
      exact .pure_true (.null Γ _)
    by_cases hab : a = b
    · rw [if_neg hnull, if_pos hab, ← hab]
      exact .pure_true (Whole.refl hs h.sound h.left h.leftOver)
    rw [if_neg hnull, if_neg hab]
    cases a with
    | null => exact absurd rfl hnull
    | prim p =>
      cases b with
      | prim q =>
        refine apart_decides h hab fun hbelow => ?_
        cases hbelow with
        | prim => exact hab rfl
      | inter st ms => exact all_decides ih h hca hcb
      | var w =>
        refine descends_var_decides ih h hca hcb fun i => ⟨fun hbelow => ?_, .lower (by simp)⟩
        cases hbelow with
        | lower _ h => exact h
      | _ => exact apart_decides h nofun nofun
    | nominal sa da aa =>
      cases b with
      | nominal sb db ab =>
        exact nominalBelowBy_decides (x := ⟨sa, da, aa⟩) (y := ⟨sb, db, ab⟩) hs ih.below h
      | inter st ms => exact all_decides ih h hca hcb
      | var w =>
        refine descends_var_decides ih h hca hcb fun i => ?_
        rw [Ty.shape_nominal]
        exact Below.nominal_var
      | _ => exact apart_decides h nofun nofun
    | array e =>
      cases b with
      | array e' => exact arrayBelowBy_decides ih.below h
      | nominal sb db ab =>
        refine .of_pure ?_
        rw [Ty.shape_array, Ty.shape_nominal, Below.array_nominal, isArrayParent_map]
      | inter st ms => exact all_decides ih h hca hcb
      | var w => exact descends_var_decides ih h hca hcb fun i => Below.array_var
      | _ =>
        refine .pure_false fun hbelow => ?_
        rw [Ty.shape_array] at hbelow
        generalize e.shape = x at hbelow
        cases hbelow
    | inter st ms =>
      cases hb : b.isInter with
      | true =>
        cases b with
        | inter st' ms' => exact all_decides ih h hca hcb
        | _ => cases hb
      | false =>
        cases ms with
        | nil =>
          have htop : Decides (Memory.Within s k Γ) (s.belowWithin depth trail .object b)
              (Below s Γ (Ty.inter st []).shape b.shape) := by
            refine (ih trail Γ C .object b ⟨h.sound, (Ty.regular_object hs).whole, h.right,
              Ty.over_object, h.rightOver⟩ (.of_no_var (by simp [Ty.object, Ty.conjuncts]))
                hcb).congr ?_
            exact (Below.top_left (by rw [Ty.isInter_shape]; exact hb)).symm
          cases b <;> first | exact htop | cases hb
        | cons c ms =>
          have hinter := inter_decides ih h hb hca hcb
          cases b <;> first | exact hinter | cases hb
    | var v =>
      obtain ⟨i, rfl, hi⟩ := h.leftOver v (by simp [Ty.vars])
      cases hb : b.isInter with
      | true =>
        cases b with
        | inter st' ms' => exact all_decides ih h hca hcb
        | _ => cases hb
      | false =>
        have hvar := var_decides ih h hb hca hcb
        cases b <;> first | exact hvar | cases hb

/-- **Whether a type is below another one**, as far as the question answers. -/
theorem below_decides (hs : s.Regular k) : s.DecidesBelow k s.below :=
  (decidesWithin hs s.depth).below

/-- **Whether two types are equivalent**, as far as the question answers. -/
theorem equivalent_decides (hs : s.Regular k) (h : s.Comparable k Γ C a b) :
    Decides (Memory.Within s k Γ) (s.equivalent a b)
      (Below s Γ a.shape b.shape ∧ Below s Γ b.shape a.shape) :=
  equivalentBy_decides hs (below_decides hs) h

end Setting
end Generics
