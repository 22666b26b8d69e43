/-
# Putting solutions in the place of unknowns

Solutions take the place of unknowns wherever a constraint is looked at. The solutions found so far
are a substitution that is `Clean`: it replaces declared variables only, by regular types that are
no intersections and mention clean captured variables only. Replacing keeps constraints tidy.

If the substitution `Agrees` with the types that the unknowns have in the end, and these types
mention no variable, then a constraint holds if it holds after replacing.
-/

import Generics.Proofs.Marks

namespace Generics

/-- Declared variables are replaced by regular types over `C` that are no intersections. -/
def Subst.Clean (s : Setting) (k : Fragment) (C : Nat → Prop) (τ : Subst) : Prop :=
  ∀ v t, τ.lookup v = some t →
    (∃ w, v = .declared w) ∧ t.Regular s k ∧ t.isInter = false ∧ t.Over C

/-- Unknowns are replaced by what `σ` has for them, which mentions no variable. -/
def Subst.Agrees (U : TypeVar → Prop) (σ : Var → Ty) (τ : Subst) : Prop :=
  ∀ w t, τ.lookup (.declared w) = some t → U w → t.vars = [] ∧ t.shape = σ (.declared w)

/-- A variable stays if there is nothing to put in. -/
theorem Subst.image_of_none {τ : Subst} {v : Var} (h : τ.lookup v = none) : τ.image v = .var v := by
  rw [image, h]
  rfl

/-- Types that are put in lose their sites. -/
theorem Subst.image_of_some {τ : Subst} {v : Var} {t : Ty} (h : τ.lookup v = some t) :
    τ.image v = t.shape := by
  rw [image, h]
  rfl

namespace Ty.Replaced

variable {s : Setting} {k : Fragment} {U : TypeVar → Prop} {A C : Nat → Prop} {σ : Var → Ty}
  {τ : Subst} {t t' a a' b b' : Ty}

/-- The variables after replacing were there before, or came with what was put in. -/
theorem vars (h : Ty.Replaced τ t t') {v : Var} (hv : v ∈ t'.vars) :
    (v ∈ t.vars ∧ τ.lookup v = none) ∨ ∃ w ∈ t.vars, ∃ u, τ.lookup w = some u ∧ v ∈ u.vars := by
  rw [← Ty.vars_shape, h.shape, Ty.mem_vars_rebuild] at hv
  obtain ⟨w, hw, hv⟩ := hv
  cases hlook : τ.lookup w with
  | none =>
    rw [Subst.image_of_none hlook, Ty.vars, List.mem_singleton] at hv
    exact .inl ⟨hv ▸ hw, hv ▸ hlook⟩
  | some u =>
    rw [Subst.image_of_some hlook, Ty.vars_shape] at hv
    exact .inr ⟨w, hw, u, hlook, hv⟩

/-- Clean solutions bring known variables only. -/
theorem known (h : Ty.Replaced τ t t') (hτ : τ.Clean s k C) (ht : t.Known U A)
    (hCA : ∀ i, C i → A i) : t'.Known U A := by
  intro v hv
  rcases h.vars hv with ⟨hv, _⟩ | ⟨w, _, u, hlook, hv⟩
  · exact ht v hv
  · exact (hτ w u hlook).2.2.2.known hCA v hv

/-- Clean solutions bring captured variables of theirs only. -/
theorem over_of (h : Ty.Replaced τ t t') (hτ : τ.Clean s k C) (ht : t.Over C) : t'.Over C := by
  intro v hv
  rcases h.vars hv with ⟨hv, _⟩ | ⟨w, _, u, hlook, hv⟩
  · exact ht v hv
  · exact (hτ w u hlook).2.2.2 v hv

/-- Clean solutions make no intersection. -/
theorem isInter (h : Ty.Replaced τ t t') (hτ : τ.Clean s k C) : t'.isInter = t.isInter := by
  have himage : ∀ v, (τ.image v).isInter = false := by
    intro v
    cases hlook : τ.lookup v with
    | none =>
      rw [Subst.image_of_none hlook]
      rfl
    | some u =>
      rw [Subst.image_of_some hlook, Ty.isInter_shape]
      exact (hτ v u hlook).2.2.1
  rw [← Ty.isInter_shape, h.shape, Ty.isInter_rebuild himage]

/-- Clean solutions keep types regular. -/
theorem regular_of (h : Ty.Replaced τ t t') (hτ : τ.Clean s k C) (ht : t.Regular s k) :
    t'.Regular s k := h.regular s k ht fun v _ u hlook => (hτ v u hlook).2.1

/-- Clean solutions keep types whole. -/
theorem whole (h : Ty.Replaced τ t t') (hτ : τ.Clean s k C) (ht : t.Whole s k) :
    t'.Whole s k := by
  rcases ht with hp | ht
  · cases t with
    | prim p =>
      have hshape := h.shape
      cases t' <;> first | exact .inl rfl | cases hshape
    | _ => cases hp
  · exact (h.regular_of hτ ht).whole

/-- In the full fragment no variable is replaced by a primitive. -/
theorem isPrim (h : Ty.Replaced τ t t') (hτ : τ.Clean s .full C) (hp : t'.isPrim = true) :
    t.isPrim = true := by
  have hshape := h.shape
  cases t' with
  | prim p =>
    cases t with
    | prim q => rfl
    | var v =>
      rw [Ty.rebuild] at hshape
      cases hlook : τ.lookup v with
      | none =>
        rw [Subst.image_of_none hlook] at hshape
        cases hshape
      | some u =>
        rw [Subst.image_of_some hlook] at hshape
        have hu := (hτ v u hlook).2.1.not_prim
        cases u with
        | prim q => cases hu
        | _ => cases hshape
    | _ => cases hshape
  | _ => cases hp

/-- What takes the place of a type with no bare variable has no bare variable. -/
theorem bare (h : Ty.Replaced τ t t') (ht : t.Whole s k) {v : Var}
    (hv : Ty.var v ∈ t'.conjuncts) : ∃ w, Ty.var w ∈ t.conjuncts := by
  have hmem : Ty.var v ∈ t'.shape.conjuncts := by
    rw [Ty.shape, Ty.conjuncts_rebuild, Ty.rebuildParts_eq_flatMap, List.mem_flatMap]
    exact ⟨_, hv, List.mem_cons_self⟩
  rw [h.shape, Ty.conjuncts_rebuild, Ty.rebuildParts_eq_flatMap, List.mem_flatMap] at hmem
  obtain ⟨c, hc, hmem⟩ := hmem
  cases c with
  | var w => exact ⟨w, hc⟩
  | inter st ms =>
    rcases ht with hp | ht
    · cases t with
      | prim p => simp [Ty.conjuncts] at hc
      | _ => cases hp
    · cases (Ty.isInter_eq_false_of_mem_conjuncts ht hc).1
  | _ => simp [Ty.rebuild, Ty.conjuncts] at hmem

/-- **Replacing keeps constraints tidy.** -/
theorem tidy {μ : Marks} (ha : Ty.Replaced τ a a') (hb : Ty.Replaced τ b b')
    (hτ : τ.Clean s k μ.clean) (hsub : ∀ i, μ.clean i → μ.used i) (h : s.Tidy k U μ a b) :
    s.Tidy k U μ a' b' := by
  have hid : ∀ i, μ.clean i → μ.clean i := fun _ => id
  have hunknown : ∀ {x x' : Ty}, Ty.Replaced τ x x' → x.IsUnknown →
      x'.Over μ.clean ∨ x'.IsUnknown := by
    rintro x x' hx ⟨w, rfl⟩
    have hshape := hx.shape
    rw [Ty.rebuild] at hshape
    cases hlook : τ.lookup (.declared w) with
    | none =>
      rw [Subst.image_of_none hlook] at hshape
      cases x' <;> first | exact .inr ⟨w, hshape⟩ | cases hshape
    | some u =>
      rw [Subst.image_of_some hlook] at hshape
      refine .inl (Ty.Over.of_shape ?_)
      rw [hshape]
      exact (hτ _ u hlook).2.2.2.shape
  refine ⟨ha.whole hτ h.left, hb.whole hτ h.right, ha.known hτ h.leftKnown hsub,
    hb.known hτ h.rightKnown hsub, ?_, ?_⟩
  · rcases h.clears with h | h | ⟨h₁, h₂, hk | hu | hu⟩
    · exact .inl (ha.over_of hτ h)
    · exact .inr (.inl (hb.over_of hτ h))
    · exact .inr (.inr ⟨ha.known hτ h₁ hid, hb.known hτ h₂ hid, .inl hk⟩)
    · rcases hunknown ha hu with hu | hu
      · exact .inl hu
      · exact .inr (.inr ⟨ha.known hτ h₁ hid, hb.known hτ h₂ hid, .inr (.inl hu)⟩)
    · rcases hunknown hb hu with hu | hu
      · exact .inr (.inl hu)
      · exact .inr (.inr ⟨ha.known hτ h₁ hid, hb.known hτ h₂ hid, .inr (.inr hu)⟩)
  · rintro rfl
    obtain ⟨hab, hba⟩ := h.faces rfl
    refine ⟨fun hp v hv => ?_, fun hp v hv => ?_⟩
    · obtain ⟨w, hw⟩ := hb.bare h.right hv
      exact hab (ha.isPrim hτ hp) w hw
    · obtain ⟨w, hw⟩ := ha.bare h.left hv
      exact hba (hb.isPrim hτ hp) w hw

/-- A realization puts the same in for a type before and after replacing. -/
theorem put {Γ : Scope} {R : Realization s k Γ U σ} (h : Ty.Replaced τ t t')
    (hτ : τ.Agrees U σ) (hclean : τ.Clean s k C) (hR : R.Covers t) :
    R.Covers t' ∧ t'.rebuild R.put = t.rebuild R.put := by
  have hdeclared : ∀ v u, τ.lookup v = some u → R.has v → u.vars = [] ∧ u.shape = R.put v := by
    intro v u hlook hv
    obtain ⟨⟨w, rfl⟩, _⟩ := hclean v u hlook
    obtain ⟨hw, hput⟩ := R.given w hv
    rw [hput]
    exact hτ w u hlook hw
  constructor
  · intro v hv
    rcases h.vars hv with ⟨hv, _⟩ | ⟨w, hw, u, hlook, hv⟩
    · exact hR v hv
    · rw [(hdeclared w u hlook (hR w hw)).1] at hv
      cases hv
  · rw [← Ty.rebuild_shape, h.shape, Ty.rebuild_rebuild]
    refine Ty.rebuild_congr fun v hv => ?_
    cases hlook : τ.lookup v with
    | none =>
      rw [Subst.image_of_none hlook]
      rfl
    | some u =>
      obtain ⟨hvars, hput⟩ := hdeclared v u hlook (hR v hv)
      rw [Subst.image_of_some hlook, Ty.rebuild_shape, Ty.rebuild_eq_shape (by simp [hvars]), hput]

/-- **What holds after replacing holds before.** -/
theorem good {Γ : Scope} (ha : Ty.Replaced τ a a') (hb : Ty.Replaced τ b b')
    (hτ : τ.Agrees U σ) (hclean : τ.Clean s k C) (h : Good s k Γ U σ a' b') :
    Good s k Γ U σ a b := by
  intro R hRa hRb
  obtain ⟨hca, hpa⟩ := ha.put hτ hclean hRa
  obtain ⟨hcb, hpb⟩ := hb.put hτ hclean hRb
  have hbelow := h R hca hcb
  rwa [hpa, hpb] at hbelow

end Ty.Replaced
end Generics
