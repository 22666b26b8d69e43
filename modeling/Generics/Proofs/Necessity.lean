/-
# What is asked for is needed

A reduction must not ask for more than a solution has to meet. In the plain fragment it does not: put
closed types in for the unknowns, such that the constraint holds, and what the constraint is reduced
to holds too (`Setting.Resolves.under`). No such constraint asks for one out of several
(`Setting.Resolves.simple`).

For an equality this rests on the order of types: closed types that are below each other are the same
(`Below.antisymm`). The target may have wildcards as arguments as long as it has not been taken apart,
which the first constraint on it does.
-/

import Generics.Proofs.Soundness

namespace Generics

/-! ### Closed types -/

/-- Applied declarations that are below each other inherit. -/
theorem Below.inherits {s : Setting} {Γ : Scope} {d e : String} {as bs : List Arg}
    (h : Below s Γ (.nominal .common d as) (.nominal .common e bs)) :
    Query.Settles s (s.inherits d e) (.ok true) := by
  cases h with
  | raw h => exact h
  | args h _ _ _ _ _ => exact h

/-- Plain declarations are applied to plain types. -/
theorem Ty.Regular.types {s : Setting} {st : Site} {d : String} {as : List Arg}
    (h : (Ty.nominal st d as).Regular s .plain) :
    ∀ a ∈ as, ∃ t, a = .type t ∧ t.Regular s .plain := by
  intro a ha
  rw [Ty.Regular, Arg.regularAll_iff] at h
  have hreg := h.2 a ha
  cases a with
  | type t => exact ⟨t, rfl, hreg⟩
  | wild u l => cases hreg.1

mutual
/-- In the plain fragment, primitives stand where they belong as soon as they do up to sites. -/
theorem Ty.Regular.full_of_shape {s : Setting} :
    ∀ {t : Ty}, t.Regular s .plain → t.shape.Regular s .full → t.Regular s .full
  | .prim _, _, h => h
  | .null, _, h => h
  | .nominal st d as, hp, h => by
    rw [Ty.shape, Ty.rebuild, Ty.Regular, Arg.rebuildAll_eq_map, List.length_map,
      ← Arg.rebuildAll_eq_map] at h
    rw [Ty.Regular] at hp ⊢
    exact ⟨h.1, Arg.RegularAll.full_of_shape hp.2 h.2⟩
  | .array elem, hp, h => by
    rw [Ty.shape_array, Ty.Regular, Ty.isPrim_shape] at h
    rw [Ty.Regular] at hp ⊢
    cases hprim : elem.isPrim with
    | true => exact .inl rfl
    | false =>
      rw [hprim] at h hp
      exact .inr (Ty.Regular.full_of_shape (hp.resolve_left (by simp)) (h.resolve_left (by simp)))
  | .inter _ _, hp, _ => by cases hp.1
  | .var _, _, _ => by rw [Ty.Regular]; trivial

/-- Plain arguments whose shapes are regular are regular. -/
theorem Arg.RegularAll.full_of_shape {s : Setting} : ∀ {as : List Arg}, Arg.RegularAll s .plain as →
    Arg.RegularAll s .full (Arg.rebuildAll .var as) → Arg.RegularAll s .full as
  | [], _, _ => by rw [Arg.RegularAll]; trivial
  | .type t :: as, hp, h => by
    rw [Arg.rebuildAll, Arg.RegularAll, Arg.rebuild, Arg.Regular] at h
    rw [Arg.RegularAll, Arg.Regular] at hp ⊢
    exact ⟨Ty.Regular.full_of_shape hp.1 h.1, Arg.RegularAll.full_of_shape hp.2 h.2⟩
  | .wild _ _ :: as, hp, _ => by
    rw [Arg.RegularAll, Arg.Regular] at hp
    cases hp.1.1
end

/-- Types that are below each other argument by argument are the same if that makes the arguments the
same. -/
theorem Arg.eq_of_demands {as bs : List Arg} (hlen : as.length = bs.length)
    (has : ∀ a ∈ as, ∃ t, a = .type t) (hbs : ∀ b ∈ bs, ∃ t, b = .type t)
    (h : ∀ x ∈ Arg.demandsAll as bs, x.1 = x.2) : as = bs := by
  refine List.ext_getElem hlen fun i hi hi' => ?_
  obtain ⟨t, ht⟩ := has _ (List.getElem_mem hi)
  obtain ⟨u, hu⟩ := hbs _ (List.getElem_mem hi')
  have hpair : (as[i], bs[i]) ∈ as.zip bs :=
    List.mem_iff_getElem.2 ⟨i, by rw [List.length_zip]; omega, List.getElem_zip⟩
  rw [ht, hu] at hpair ⊢
  have hmem : (t, u) ∈ Arg.demandsAll as bs :=
    List.mem_flatMap.2 ⟨_, hpair, List.mem_cons_self⟩
  rw [show t = u from h _ hmem]

/-- **Closed plain types that are below each other are the same.** -/
theorem Below.antisymm {s : Setting} {k : Fragment} (hs : s.Regular k) (hacyc : s.Acyclic)
    {Γ : Scope} {x y : Ty} (h : Below s Γ x y) :
    Below s Γ y x → x.Regular s .plain → y.Regular s .plain → x.vars = [] → y.vars = [] → x = y := by
  induction h with
  | null Γ b =>
    intro h' _ hb _ hbv
    cases h' with
    | null => rfl
    | top _ _ => cases hb.1
    | member _ _ _ => cases hb.1
    | upper _ _ => cases hbv
  | @raw Γ d e as hi =>
    intro h' ha _ _ _
    obtain rfl := Setting.inherits_antisymm hs.object hacyc hi h'.inherits
    rw [Ty.Regular] at ha
    obtain ⟨l, hl, hcount⟩ := ha.1
    by_cases has : as = []
    · rw [has]
    · have hps := (Below.nominal_cons has).1 h'
      rw [Setting.paramsOf_eq hl] at hps
      rw [hps.2.1 rfl] at hcount
      simp [has] at hcount
  | @args Γ d e as bs cs hi hne hraw hseen hlen hdem ih =>
    intro h' ha hb hav hbv
    obtain rfl := Setting.inherits_antisymm hs.object hacyc hi h'.inherits
    rw [Setting.captureArgs_of_no_wild ha.not_wild] at hseen
    obtain rfl := hseen.unique (.here as)
    rw [Scope.capture_of_no_wild ha.not_wild] at hdem
    have hclosed : ∀ z ∈ cs ++ bs, ∀ t, z = .type t → t.Regular s .plain ∧ t.vars = [] := by
      intro z hz t ht
      subst ht
      rcases List.mem_append.1 hz with hz | hz
      · obtain ⟨_, htype, hreg⟩ := ha.types _ hz
        cases htype
        exact ⟨hreg, Setting.vars_of_parts hav hz List.mem_cons_self⟩
      · obtain ⟨_, htype, hreg⟩ := hb.types _ hz
        cases htype
        exact ⟨hreg, Setting.vars_of_parts hbv hz List.mem_cons_self⟩
    have hcs : ∀ a ∈ cs, ∃ t, a = .type t := fun a h => (ha.types a h).imp fun _ => And.left
    have hbs : ∀ b ∈ bs, ∃ t, b = .type t := fun b h => (hb.types b h).imp fun _ => And.left
    rw [Arg.eq_of_demands hlen hcs hbs fun x hx => ?_]
    obtain ⟨⟨c, b⟩, hpair, hx'⟩ := List.mem_flatMap.1 hx
    obtain ⟨t, rfl⟩ := hcs c (List.of_mem_zip hpair).1
    obtain ⟨u, rfl⟩ := hbs b (List.of_mem_zip hpair).2
    obtain ⟨htr, htv⟩ := hclosed _ (List.mem_append_left _ (List.of_mem_zip hpair).1) t rfl
    obtain ⟨hur, huv⟩ := hclosed _ (List.mem_append_right _ (List.of_mem_zip hpair).2) u rfl
    have hmem : ∀ z ∈ [(t, u), (u, t)], z ∈ Arg.demandsAll cs bs := fun z hz =>
      List.mem_flatMap.2 ⟨_, hpair, hz⟩
    have htu := hdem _ (hmem (t, u) (by simp))
    have hut := hdem _ (hmem (u, t) (by simp))
    have heq : t = u := by
      refine ih _ (hmem (t, u) (by simp)) ?_ htr hur htv huv
      rwa [Scope.capture_of_no_wild ha.not_wild]
    rw [Arg.demands, List.mem_cons, List.mem_singleton] at hx'
    rcases hx' with rfl | rfl
    · exact heq
    · exact heq.symm
  | members _ _ => intro _ _ hb; cases hb.1
  | top _ _ _ => intro _ ha; cases ha.1
  | member _ _ _ _ => intro _ ha; cases ha.1
  | upper _ _ _ => intro _ _ _ hav; cases hav
  | lower _ _ _ => intro _ _ _ _ hbv; cases hbv
  | refl _ _ => intros; rfl
  | @component Γ a b hpa hpb _ ih =>
    intro h' ha hb hav hbv
    rw [Ty.Regular] at ha hb
    rw [ih ((Below.array_array hpb hpa).1 h') (ha.resolve_left (by simp [hpa]))
      (hb.resolve_left (by simp [hpb])) hav hbv]
  | components _ _ => intros; rfl
  | arrayParent _ => intro h'; cases h'
  | prim _ _ => intros; rfl

/-! ### Types over the unknowns -/

/-- A type of both fragments: neither wildcards nor intersections stand in it, and primitives only as
components of arrays. Its variables are among the given ones. -/
structure Ty.Simple (s : Setting) (vars : List TypeVar) (t : Ty) : Prop where
  regular : ∀ k, t.Regular s k
  known : ∀ v ∈ t.vars, ∃ w ∈ vars, v = .declared w

/-- An applied declaration whose arguments are simple types, or wildcards with simple bounds. -/
def Nominal.Open (s : Setting) (vars : List TypeVar) (n : Nominal) : Prop :=
  ∀ a ∈ n.args, ∀ t ∈ a.parts, t.Simple s vars

/-- Closed plain types to put in for unknowns, none of which is a primitive. -/
structure Filling (s : Setting) (vars : List TypeVar) (σ : Var → Ty) : Prop extends Proper σ where
  regular : ∀ w ∈ vars, (σ (.declared w)).Regular s .plain
  closed : ∀ w ∈ vars, (σ (.declared w)).vars = []

/-- With the types put in, the first type is below the second one. -/
def Setting.Under (s : Setting) (Γ : Scope) (σ : Var → Ty) (a b : Ty) : Prop :=
  Below s Γ (a.rebuild σ) (b.rebuild σ)

section Simple

variable {s : Setting} {k : Fragment} {vars : List TypeVar} {σ : Var → Ty} {Γ : Scope} {t a b : Ty}

namespace Ty.Simple

/-- A simple type is no intersection. -/
theorem isInter (h : t.Simple s vars) : t.isInter = false := by
  cases t with
  | inter _ _ => cases (h.regular .plain).1
  | _ => rfl

/-- A simple type is no primitive. -/
theorem isPrim (h : t.Simple s vars) : t.isPrim = false := (h.regular .full).not_prim

/-- The arguments of a simple type are simple types. -/
theorem args {n : Nominal} (h : n.toTy.Simple s vars) :
    ∀ x ∈ n.args, ∃ t, x = .type t ∧ t.Simple s vars := by
  intro x hx
  obtain ⟨t, rfl, _⟩ := Ty.Regular.types (h.regular .plain) x hx
  refine ⟨t, rfl, fun k => ?_, fun v hv => h.known v (Arg.mem_varsAll.2 ⟨_, hx, hv⟩)⟩
  have hreg := h.regular k
  rw [Nominal.toTy, Ty.Regular, Arg.regularAll_iff] at hreg
  exact hreg.2 _ hx

/-- A simple declaration is open. -/
theorem nominal_open {n : Nominal} (h : n.toTy.Simple s vars) : n.Open s vars := by
  intro x hx t ht
  obtain ⟨u, rfl, hu⟩ := h.args x hx
  rwa [List.mem_singleton.1 ht]

/-- With the types put in, a simple type is a closed plain one. -/
theorem fill (h : t.Simple s vars) (hσ : Filling s vars σ) :
    (t.rebuild σ).Regular s .plain ∧ (t.rebuild σ).vars = [] := by
  refine ⟨(h.regular .plain).rebuild fun v hv => ?_, List.eq_nil_iff_forall_not_mem.2 fun v hv => ?_⟩
  · obtain ⟨w, hw, rfl⟩ := h.known v hv
    exact hσ.regular w hw
  · obtain ⟨u, hu, hv⟩ := Ty.mem_vars_rebuild.1 hv
    obtain ⟨w, hw, rfl⟩ := h.known u hu
    rw [hσ.closed w hw] at hv
    cases hv

/-- A type whose shape is in both fragments is so itself. -/
theorem of_shape (h : ∀ k, t.shape.Regular s k) : ∀ k, t.Regular s k
  | .plain => Ty.Regular.of_shape (h .plain)
  | .full => Ty.Regular.full_of_shape (Ty.Regular.of_shape (h .plain)) (h .full)

/-- Replacing variables by closed types leaves simple types. -/
theorem replaced {τ : Subst} {t' : Ty} (h : t.Simple s vars) (hshape : t'.shape = t.rebuild τ.image)
    (hτ : ∀ v u, τ.lookup v = some u → u.Simple s []) : t'.Simple s vars where
  regular := by
    have hk : ∀ k, t'.shape.Regular s k := fun k => by
      refine hshape ▸ (h.regular k).rebuild fun v _ => ?_
      cases hlook : τ.lookup v with
      | none =>
        rw [Subst.image_of_none hlook, Ty.Regular]
        trivial
      | some u =>
        rw [Subst.image_of_some hlook]
        exact ((hτ v u hlook).regular k).shape
    exact of_shape hk
  known v hv := by
    rw [← Ty.vars_shape, hshape, Ty.mem_vars_rebuild] at hv
    obtain ⟨w, hw, hv⟩ := hv
    cases hlook : τ.lookup w with
    | none =>
      rw [Subst.image_of_none hlook] at hv
      exact List.mem_singleton.1 hv ▸ h.known w hw
    | some u =>
      rw [Subst.image_of_some hlook, Ty.vars_shape] at hv
      obtain ⟨_, hnil, _⟩ := (hτ w u hlook).known v hv
      cases hnil

/-- The component of a simple array is simple, unless it is a primitive. -/
theorem component (h : (Ty.array t).Simple s vars) (hprim : t.isPrim = false) : t.Simple s vars := by
  refine ⟨fun k => ?_, h.known⟩
  have hreg := h.regular k
  rw [Ty.Regular, hprim] at hreg
  exact hreg.resolve_left (by simp)

/-- A type that is simple over no unknowns is closed. -/
theorem vars_eq_nil (h : t.Simple s []) : t.vars = [] :=
  List.eq_nil_iff_forall_not_mem.2 fun v hv => by
    obtain ⟨_, hnil, _⟩ := h.known v hv
    cases hnil

end Ty.Simple

/-- A closed type that is equal to a filled one is what was put in. -/
theorem Filling.shape_eq (hσ : Filling s vars σ) (hs : s.Regular k) (hacyc : s.Acyclic)
    {w : TypeVar} (hw : w ∈ vars) (ht : t.Simple s []) (h₁ : s.Under Γ σ (.var (.declared w)) t)
    (h₂ : s.Under Γ σ t (.var (.declared w))) : t.shape = σ (.declared w) := by
  have hshape : t.rebuild σ = t.shape :=
    Ty.rebuild_eq_shape fun v hv => by rw [ht.vars_eq_nil] at hv; cases hv
  rw [Setting.Under, hshape] at h₁ h₂
  refine (Below.antisymm hs hacyc h₁ h₂ (hσ.regular w hw) (ht.regular .plain).shape
    (hσ.closed w hw) ?_).symm
  rw [Ty.vars_shape, ht.vars_eq_nil]

/-- Replacing unknowns by what is put in for them changes nothing with the types put in. -/
theorem Ty.Replaced.fill {τ : Subst} {t' : Ty} (hrep : Ty.Replaced τ t t')
    (ht : ∀ v ∈ t.vars, ∃ w ∈ vars, v = .declared w) (hτ : τ.Agrees (· ∈ vars) σ) :
    t'.rebuild σ = t.rebuild σ := by
  rw [← Ty.rebuild_shape σ t', hrep.shape, Ty.rebuild_rebuild]
  refine Ty.rebuild_congr fun v hv => ?_
  obtain ⟨w, hw, rfl⟩ := ht v hv
  cases hlook : τ.lookup (.declared w) with
  | none => rw [Subst.image_of_none hlook, Ty.rebuild]
  | some u =>
    obtain ⟨hu, hshape⟩ := hτ w u hlook hw
    rw [Subst.image_of_some hlook, Ty.rebuild_shape, ← hshape]
    exact Ty.rebuild_eq_shape fun v hv => by rw [hu] at hv; cases hv

end Simple

/-! ### Reducing with types put in -/

/-- Questions over the catalog are plain, and primitives stand in declared supertypes and bounds as
components of arrays only. -/
structure Setting.Plain (s : Setting) : Prop where
  regular : s.Regular .plain
  parents : ∀ k decl l, s.lineageOf decl = some l → ∀ n ∈ l.parents, n.toTy.Regular s k
  bounds : ∀ k decl l, s.lineageOf decl = some l → ∀ p ∈ l.params, (s.catalog.upper p).Regular s k

/-- A type that constraints may ask a simple one to be below of. -/
def Setting.Asked (s : Setting) (vars : List TypeVar) (t : Ty) : Prop :=
  t.Simple s vars ∨ ∃ n : Nominal, t = n.toTy ∧ n.Open s vars

namespace Inference

/-- A claim on simple types, or that a simple type is below a target that has not been taken apart. -/
structure Claim.Simple (s : Setting) (vars : List TypeVar) (c : Claim) : Prop where
  lhs : c.lhs.Simple s vars
  rhs : c.rhs.Simple s vars ∨
    c.rel = .below ∧ ¬ c.lhs.IsUnknown ∧ ∃ n : Nominal, c.rhs = n.toTy ∧ n.Open s vars

/-- The right side of a simple claim may be asked for. -/
theorem Claim.Simple.asked {s : Setting} {vars : List TypeVar} {c : Claim} (h : c.Simple s vars) : s.Asked vars c.rhs :=
  h.rhs.imp id fun h => h.2.2

/-- If more than being below is claimed, both sides are simple. -/
theorem Claim.Simple.rhs_of_rel {s : Setting} {vars : List TypeVar} {c : Claim} (h : c.Simple s vars) (hrel : c.rel ≠ .below) :
    c.rhs.Simple s vars := h.rhs.resolve_right fun h => hrel h.1

/-- What is asked for is nothing that could hold, or several claims on simple types. -/
def Verdict.Simple (s : Setting) (vars : List TypeVar) : Verdict → Prop
  | .all cs => ∀ c ∈ cs, c.lhs.Simple s vars ∧ c.rhs.Simple s vars
  | .one _ => False
  | .never => True

end Inference

namespace Setting

open Query Inference

variable {s : Setting} {k : Fragment} {vars : List TypeVar} {σ : Var → Ty} {Γ : Scope}
  {m m' : Memory} {a b : Ty} {v : Verdict}

/-- Declarations that may be asked for are open. -/
theorem Asked.nominal {n : Nominal} (h : s.Asked vars n.toTy) : n.Open s vars := by
  rcases h with h | ⟨n', heq, h⟩
  · exact h.nominal_open
  · cases n
    cases n'
    cases heq
    exact h

/-- The shapes of plain arguments are no wildcards. -/
theorem isWild_shapes {d : String} {st : Site} {as : List Arg}
    (h : (Ty.nominal st d as).Regular s .plain) : ∀ c ∈ as.map Arg.shape, c.isWild = false := by
  intro c hc
  obtain ⟨a, ha, rfl⟩ := List.mem_map.1 hc
  exact (isWild_rebuild .var a).trans (h.not_wild a ha)

/-- What plain declarations meet is what the way up finds. -/
theorem Meets.seen_plain {x y : Nominal} {cs : List Arg} (h : s.Meets k m x y cs m')
    (hx : x.toTy.Regular s .plain) :
    s.SeenAs y.decl x.decl (x.args.map Arg.shape) (cs.map Arg.shape) := by
  have hseen := h.seen
  rwa [captureArgs_of_no_wild (isWild_shapes hx)] at hseen

/-- Plain declarations can be applied to the shapes of their arguments. -/
theorem fits_shapes {x : Nominal} (hx : x.toTy.Regular s .plain) :
    s.Fits x.decl (x.args.map Arg.shape) := by
  refine ⟨?_, isWild_shapes hx⟩
  rw [Nominal.toTy, Ty.Regular] at hx
  rw [List.length_map]
  exact hx.1

/-- The arguments found are simple types. -/
theorem Meets.simple (hs : s.Plain) {x y : Nominal} {cs : List Arg}
    (h : s.Meets k m x y cs m') (hx : x.toTy.Simple s vars) :
    ∀ c ∈ cs, ∃ t, c = .type t ∧ t.Simple s vars := by
  have hargs : ∀ a ∈ x.args.map Arg.shape, (∀ k, a.Regular s k) ∧
      ∀ v ∈ a.vars, ∃ w ∈ vars, v = .declared w := by
    intro a ha
    obtain ⟨z, hz, rfl⟩ := List.mem_map.1 ha
    obtain ⟨t, rfl, ht⟩ := hx.args z hz
    exact ⟨fun k => (ht.regular k).shape, fun v hv => ht.known v (by rwa [← Ty.vars_shape])⟩
  intro c hc
  have hfound : ∀ k, c.shape.Regular s k ∧ ∀ v ∈ c.shape.vars, ∃ w ∈ vars, v = .declared w := fun k =>
    (h.seen_plain (hx.regular .plain)).regular_in hs.regular.parents (hs.parents k)
      (fits_shapes (hx.regular .plain)) (fun a ha => (hargs a ha).1 k) (fun a ha => (hargs a ha).2) _
      (List.mem_map_of_mem hc)
  cases c with
  | type t =>
    refine ⟨t, rfl, Ty.Simple.of_shape fun k => (hfound k).1, fun v hv => (hfound .plain).2 v ?_⟩
    rwa [Arg.shape_type, Arg.vars, Ty.vars_shape]
  | wild u l => cases (hfound .plain).1.1

/-- The arguments found meet those asked for with the types put in. -/
theorem Meets.under (hs : s.Regular k) (hσ : Siteless σ) {x y : Nominal} {cs : List Arg}
    (h : s.Meets k m x y cs m') (hx : x.toTy.Regular s .plain)
    (hbelow : s.Under Γ σ x.toTy y.toTy) :
    ∀ z ∈ Arg.demandsAll cs y.args, s.Under Γ σ z.1 z.2 := by
  have hwild : ∀ c ∈ x.args.map (Arg.rebuild σ), c.isWild = false := by
    intro c hc
    obtain ⟨a, ha, rfl⟩ := List.mem_map.1 hc
    exact (isWild_rebuild σ a).trans (Ty.Regular.not_wild hx a ha)
  rw [Under, Nominal.toTy, Nominal.toTy, Ty.rebuild_nominal, Ty.rebuild_nominal,
    Below.nominal_cons (by simpa using h.asked), captureArgs_of_no_wild hwild,
    Scope.capture_of_no_wild hwild] at hbelow
  obtain ⟨_, _, ds, hds, _, hdem⟩ := hbelow
  have hseen := (h.seen_plain hx).rebuild hs.parentsFit hs.parentsOwn hσ (fits_shapes hx)
  rw [Arg.map_rebuild_shape, Arg.map_rebuild_shape] at hseen
  rw [hds.unique hseen, Arg.demandsAll_map] at hdem
  exact fun z hz => hdem _ (List.mem_map_of_mem hz)

/-- What comes of simple types that are not both applied declarations. -/
theorem Breaks.simple (ha : a.Simple s vars) (hb : s.Asked vars b) (h : s.Breaks m a b v) :
    (v = .never ∧ ∀ f, Proper f → ∀ Γ, ¬ Below s Γ (a.rebuild f) (b.rebuild f)) ∨ v = .all [] ∨
      ∃ x y, a = .array x ∧ b = .array y ∧ x.isPrim = false ∧ y.isPrim = false ∧
        v = .all [⟨x, .below, y⟩] := by
  have hcaptured : ∀ {i : Nat}, ¬ (Ty.var (.captured i)).Simple s vars := by
    intro i hsimple
    obtain ⟨_, _, hdecl⟩ := hsimple.known _ List.mem_cons_self
    cases hdecl
  cases h with
  | null => exact .inr (.inl rfl)
  | members _ _ _ =>
    rcases hb with hb | ⟨n, hn, _⟩
    · cases hb.isInter
    · cases n
      cases hn
  | top _ _ => cases ha.isInter
  | member _ _ _ _ => cases ha.isInter
  | memberUnknown _ _ _ => cases ha.isInter
  | memberCaptured _ _ _ => cases ha.isInter
  | same _ => exact absurd ha hcaptured
  | captured _ => exact absurd ha hcaptured
  | upper _ _ _ => exact absurd ha hcaptured
  | lower _ _ _ =>
    rcases hb with hb | ⟨n, hn, _⟩
    · exact absurd hb hcaptured
    · cases n
      cases hn
  | component hpa hpb => exact .inr (.inr ⟨_, _, rfl, rfl, hpa, hpb, rfl⟩)
  | components _ => exact .inr (.inl rfl)
  | arrayParent _ _ _ => exact .inr (.inl rfl)
  | prim _ => exact .inr (.inl rfl)
  | never h => exact .inl ⟨rfl, h⟩

/-- What is asked of simple arguments is asked of simple types. -/
theorem simple_ofArgs {cs bs : List Arg} (hcs : ∀ c ∈ cs, ∃ t, c = .type t ∧ t.Simple s vars)
    (hbs : ∀ b ∈ bs, ∀ t ∈ b.parts, t.Simple s vars) :
    ∀ c ∈ Claim.ofArgs cs bs, c.lhs.Simple s vars ∧ c.rhs.Simple s vars := by
  have hparts : ∀ c ∈ cs, ∀ t ∈ c.parts, t.Simple s vars := by
    intro c hc t ht
    obtain ⟨u, rfl, hu⟩ := hcs c hc
    rwa [List.mem_singleton.1 ht]
  intro c hc
  obtain ⟨x, hx, y, hy, ⟨hl, hr⟩ | ⟨hl, hr⟩⟩ := Claim.mem_ofArgs hc
  · exact ⟨hparts x hx _ hl, hbs y hy _ hr⟩
  · exact ⟨hbs y hy _ hl, hparts x hx _ hr⟩

/-- **No comparison of simple types asks for one out of several.** -/
theorem Splits.simple (hs : s.Plain) (ha : a.Simple s vars) (hb : s.Asked vars b)
    (h : s.Splits k m m' a b v) : Verdict.Simple s vars v := by
  cases h with
  | meets hmeets => exact simple_ofArgs (hmeets.simple hs ha) hb.nominal
  | always _ _ _ => exact fun c hc => absurd hc List.not_mem_nil
  | apart _ _ => trivial
  | breaks _ hbreaks =>
    rcases hbreaks.simple ha hb with ⟨rfl, _⟩ | rfl | ⟨x, y, rfl, rfl, hx, hy, rfl⟩
    · trivial
    · exact fun c hc => absurd hc List.not_mem_nil
    · intro c hc
      rw [List.mem_singleton] at hc
      subst hc
      rcases hb with hb | ⟨n, hn, _⟩
      · exact ⟨ha.component hx, hb.component hy⟩
      · cases n
        cases hn

/-- **What a reduction asks for is needed**, whatever is put in. -/
theorem Splits.under (hs : s.Regular k) (ha : a.Simple s vars) (hb : s.Asked vars b)
    (hσ : Proper σ) (h : s.Splits k m m' a b v) (hbelow : s.Under Γ σ a b) :
    v.Holds (s.Under Γ σ) := by
  cases h with
  | @meets x y cs hmeets =>
    exact (Claim.ofArgs_holds cs y.args).2 (hmeets.under hs hσ.siteless (ha.regular .plain) hbelow)
  | always _ _ _ => exact fun c hc => absurd hc List.not_mem_nil
  | apart _ hnot => exact absurd (Below.canMeet hbelow) hnot
  | breaks _ hbreaks =>
    rcases hbreaks.simple ha hb with ⟨rfl, hnever⟩ | rfl | ⟨x, y, rfl, rfl, hx, hy, rfl⟩
    · exact absurd hbelow (hnever σ hσ Γ)
    · exact fun c hc => absurd hc List.not_mem_nil
    · intro c hc
      rw [List.mem_singleton] at hc
      subst hc
      exact (Below.array_array ((hσ.isPrim_rebuild x).trans hx) ((hσ.isPrim_rebuild y).trans hy)).1
        hbelow

/-- What an equality of simple types asks for is simple. -/
theorem Equates.simple (ha : a.Simple s vars) (hb : b.Simple s vars) (h : Equates a b v) :
    Verdict.Simple s vars v := by
  cases h with
  | @args sa sb d as bs _ _ _ =>
    exact simple_ofArgs (Ty.Simple.args (n := ⟨sa, d, as⟩) ha)
      (Ty.Simple.nominal_open (n := ⟨sb, d, bs⟩) hb)
  | ways =>
    intro c hc
    rw [List.mem_cons, List.mem_singleton] at hc
    rcases hc with rfl | rfl <;> exact ⟨ha, hb⟩
  | apart _ => trivial

/-- Equalities are taken apart no further than needed. -/
theorem Equates.under (hs : s.Regular k) (hacyc : s.Acyclic) (ha : a.Simple s vars)
    (hb : b.Simple s vars) (hσ : Filling s vars σ) (h : Equates a b v)
    (h₁ : s.Under Γ σ a b) (h₂ : s.Under Γ σ b a) : v.Holds (s.Under Γ σ) := by
  cases h with
  | @args sa sb d as bs hlen hwa hwb =>
    refine (Claim.ofArgs_holds _ _).2 fun x hx => ?_
    have hbs : bs ≠ [] := by
      rintro rfl
      simp [Arg.demandsAll] at hx
    have hwild : ∀ c ∈ as.map (Arg.rebuild σ), c.isWild = false := by
      intro c hc
      obtain ⟨a, ha, rfl⟩ := List.mem_map.1 hc
      exact (isWild_rebuild σ a).trans (hwa a ha)
    rw [Under, Ty.rebuild_nominal, Ty.rebuild_nominal, Below.nominal_cons (by simpa using hbs),
      captureArgs_of_no_wild hwild, Scope.capture_of_no_wild hwild] at h₁
    obtain ⟨_, _, cs, hseen, _, hdem⟩ := h₁
    rw [hseen.unique (.here _), Arg.demandsAll_map] at hdem
    exact hdem _ (List.mem_map_of_mem hx)
  | ways =>
    intro c hc
    rw [List.mem_cons, List.mem_singleton] at hc
    rcases hc with rfl | rfl
    · exact h₁
    · exact h₂
  | @apart sa sb d e as bs hne =>
    rw [Under, Ty.rebuild_nominal, Ty.rebuild_nominal] at h₁ h₂
    obtain rfl := inherits_antisymm hs.object hacyc h₁.inherits h₂.inherits
    refine hne rfl ?_
    have heq := Below.antisymm hs hacyc h₁ h₂
    rw [← Ty.rebuild_nominal σ sa, ← Ty.rebuild_nominal σ sb] at heq
    have hargs := heq (ha.fill hσ).1 (hb.fill hσ).1 (ha.fill hσ).2 (hb.fill hσ).2
    rw [Ty.rebuild_nominal, Ty.rebuild_nominal, Ty.nominal.injEq] at hargs
    simpa using congrArg List.length hargs.2.2

/-- **No claim on simple types asks for one out of several.** -/
theorem Resolves.simple (hs : s.Plain) {c : Claim} (hc : c.Simple s vars)
    (h : s.Resolves k m m' c v) : Verdict.Simple s vars v := by
  cases h with
  | below h => exact h.simple hs hc.lhs hc.asked
  | equal _ h => exact h.simple hc.lhs (hc.rhs_of_rel (by simp))
  | above h => exact h.simple hs (hc.rhs_of_rel (by simp)) (.inl hc.lhs)

/-- **What becomes of a claim is needed**, whatever is put in. -/
theorem Resolves.under (hs : s.Regular k) (hacyc : s.Acyclic) (hσ : Filling s vars σ) {c : Claim}
    (hc : c.Simple s vars) (h : s.Resolves k m m' c v) (hholds : c.Holds (s.Under Γ σ)) :
    v.Holds (s.Under Γ σ) := by
  cases h with
  | below h => exact h.under hs hc.lhs hc.asked hσ.toProper hholds
  | equal _ h => exact h.under hs hacyc hc.lhs (hc.rhs_of_rel (by simp)) hσ hholds.1 hholds.2
  | above h => exact h.under hs (hc.rhs_of_rel (by simp)) (.inl hc.lhs) hσ.toProper hholds

end Setting

end Generics
