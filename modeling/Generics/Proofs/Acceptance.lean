/-
# Inferred types pass the check

The check of a type asks of every declaration applied in it that the arguments are below the bounds of the
parameters. An inference asks this of the declaration it infers arguments for, and of nothing that stands in
these arguments. They pass all the same (`Inference.inferred_passes`), because of where they come from: from
the target, from bounds and from supertypes, all of which pass the check.

A property of applied types that is handed on to arguments and up the hierarchy is `Setting.Hereditary`.
With the target, which may have wildcards, it is stable under a search (`Hereditary.stable`), and so it holds
of all solutions (`Concludes.all`). Two such properties are used one after the other:

1. The solutions are applied types (`Concludes.applied`). So what is known of them by derivations, that each
   is below its bound with all solutions put in, is known by ways up (`Concludes.conforms`).
2. Then what the search starts with is apt with the solutions put in, and so are the solutions
   (`Concludes.apt`).

Bounds have to be transitive for this, and they are not where raw types stand, as raw types have raw
supertypes (`passes_refuted`). So declared types are applied types here, and so are the arguments of the
target. In general arguments are at least within the bounds of their own parameters, if they mention no captured
variable (`inferred_within_bounds`). That excludes bounds that are primitives, which are inferred as they
stand but are no arguments (`bounds_refuted`).
-/

import Generics.Proofs.Conformance
import Generics.Proofs.Discipline
import Generics.Proofs.Provenance
import Generics.Proofs.Verdicts

namespace Generics

open Query

variable {s : Setting} {vars : List TypeVar} {σ : Var → Ty} {A : Ty → Prop} {t u : Ty}

/-! ### What is handed on -/

/-- A property of applied types over unknowns that is handed on to arguments and up the hierarchy, and that
is kept when solutions take the place of unknowns. -/
structure Setting.Hereditary (s : Setting) (vars : List TypeVar) (σ : Var → Ty) (A : Ty → Prop) :
    Prop where
  applied {t : Ty} : A t → t.Applied s vars
  shape {t u : Ty} : t.shape = u.shape → A t → A u
  unknown {w : TypeVar} : w ∈ vars → A (.var (.declared w))
  arg {site : Site} {decl : String} {args : List Arg} : A (.nominal site decl args) →
    ∀ t, Arg.type t ∈ args → A t
  way {ancestor decl : String} {args found : List Arg} : A (.nominal .common decl args) →
    s.Way ancestor decl args found → A (.nominal .common ancestor found)
  put {t : Ty} {τ : Subst} : A t → τ.Agrees (· ∈ vars) σ →
    (∀ w ∈ vars, ∀ u, τ.lookup (.declared w) = some u → A u) → A (t.rebuild τ.image)

/-- The argument is a type with the property, or a wildcard with bounds that have it or are the type of
null. -/
def Arg.Posed (A : Ty → Prop) : Arg → Prop
  | .type t => A t
  | .wild upper lower => (upper = .null ∨ A upper) ∧ (lower = .null ∨ A lower)

/-- The types in a posed argument have the property, or are the type of null. -/
theorem Arg.Posed.parts {a : Arg} (h : a.Posed A) : ∀ t ∈ a.parts, t = .null ∨ A t := by
  intro t ht
  cases a with
  | type t => exact .inr (List.mem_singleton.1 ht ▸ h)
  | wild u l =>
    rcases List.mem_pair.1 ht with rfl | rfl
    · exact h.1
    · exact h.2

/-- An argument stays posed when the property of its types implies another one. -/
theorem Arg.Posed.imp {B : Ty → Prop} {a : Arg} (h : a.Posed A) (himp : ∀ t ∈ a.parts, A t → B t) :
    a.Posed B := by
  cases a with
  | type t => exact himp t List.mem_cons_self h
  | wild u l =>
    exact ⟨h.1.imp_right (himp u List.mem_cons_self),
      h.2.imp_right (himp l (List.mem_cons_of_mem _ List.mem_cons_self))⟩

/-- A simple type that looks like the target has the property, if the target has it unless there are wildcards
in it. -/
theorem Setting.Hereditary.of_target (hA : s.Hereditary vars σ A) {x : Nominal}
    (hself : (∀ a ∈ x.args, a.isWild = false) → A x.toTy) {vs : List TypeVar} (ht : t.Simple s vs)
    (heq : t.shape = x.toTy.shape) : A t := by
  refine hA.shape heq.symm (hself fun a ha => ?_)
  rw [Nominal.toTy, Ty.shape_nominal] at heq
  obtain ⟨n, rfl, -, hargs⟩ := Ty.of_shape_nominal heq
  obtain ⟨b, hb, hab⟩ := Arg.exists_rebuilt hargs.symm ha
  obtain ⟨u, rfl, -⟩ := ht.args b hb
  rw [← isWild_rebuild .var a, ← hab]
  rfl

/-- **What stands in a search with a closed target has a property that is handed on**, or is the type of null
or the target, if the arguments of the target have it. -/
theorem Setting.Hereditary.stable (hA : s.Hereditary vars σ A) {x : Nominal} (hvars : x.toTy.vars = [])
    (hposed : ∀ a ∈ x.args, a.Posed A) (hself : (∀ a ∈ x.args, a.isWild = false) → A x.toTy)
    (hnull : ∀ w ∈ vars, σ (.declared w) ≠ .null) :
    s.Stable vars σ fun t => t = .null ∨ A t ∨ t.shape = x.toTy.shape := by
  have hshaped : ∀ {t u : Ty}, t.shape = u.shape → (t = .null ∨ A t ∨ t.shape = x.toTy.shape) →
      u = .null ∨ A u ∨ u.shape = x.toTy.shape := by
    rintro t u htu (rfl | ht | ht)
    · cases u with
      | null => exact .inl rfl
      | _ => cases htu
    · exact .inr (.inl (hA.shape htu ht))
    · exact .inr (.inr (htu ▸ ht))
  refine { shape := hshaped, unknown := ?_, parts := ?_, seen := ?_, component := ?_, put := ?_ }
  · exact fun hw => .inr (.inl (hA.unknown hw))
  · intro site decl args ht a ha t hta
    rcases ht with ht | ht | ht
    · cases ht
    · obtain ⟨u, rfl, -⟩ := (hA.applied ht).arg ha
      rw [List.mem_singleton.1 hta]
      exact .inr (.inl (hA.arg ht u ha))
    · rw [Nominal.toTy, Ty.shape_nominal, Ty.shape_nominal, Ty.nominal.injEq] at ht
      obtain ⟨b, hb, u, hu, hut⟩ := Arg.exists_part_rebuilt ht.2.2 ha hta
      exact hshaped hut (((hposed b hb).parts u hu).imp_right .inl)
  · intro n ancestor found hn hsimple hseen t ht
    have hAn : A n.toTy := by
      rcases hn with hn | hn | hn
      · cases hn
      · exact hn
      · exact hA.of_target hself hsimple hn
    have hshape : A (.nominal .common n.decl (n.args.map Arg.shape)) :=
      hA.shape (by rw [← Ty.shape_nominal n.site, Ty.shape_shape]; rfl) hAn
    exact .inr (.inl (hA.arg (hA.way hshape hseen.way) t ht))
  · intro t ht
    rcases ht with ht | ht | ht
    · cases ht
    · cases hA.applied ht
    · cases ht
  · intro t τ ht hτ hput
    rcases ht with rfl | ht | ht
    · exact .inl rfl
    · refine .inr (.inl (hA.put ht hτ fun w hw u hu => ?_))
      obtain ⟨hTu, hsimple⟩ := hput _ u hu
      rcases hTu with rfl | hAu | hshape
      · exact absurd (hτ w _ hu hw).2.symm (hnull w hw)
      · exact hAu
      · exact hA.of_target hself hsimple hshape
    · refine .inr (.inr ?_)
      have hclosed : t.vars = [] := by rw [← Ty.vars_shape, ht, Ty.vars_shape, hvars]
      rw [Ty.rebuild_eq_shape, Ty.shape_shape, ht]
      intro v hv
      rw [hclosed] at hv
      cases hv

/-- Being applied is handed on. -/
theorem Ty.Applied.hereditary (hs : s.Hierarchy) : s.Hereditary vars σ (Ty.Applied s vars) where
  applied := id
  shape heq ht := (heq ▸ ht.shape).of_shape
  unknown hw := .var hw
  arg ht t hta := by
    cases ht with
    | nominal _ _ _ htypes => exact htypes t hta
  way ht hway := hs.applied_way hway ht
  put {t τ} ht _ hput := by
    refine ht.rebuild fun p hp => ?_
    cases hlook : τ.lookup (.declared p) with
    | none => exact Subst.image_of_none hlook ▸ .var hp
    | some u => exact Subst.image_of_some hlook ▸ (hput p hp u hlook).shape

/-- **Being apt is handed on** where the supertypes of all declarations are apt. -/
theorem Ty.AptUnder.hereditary (hs : s.Hierarchy)
    (hbounds : ∀ decl l, s.lineageOf decl = some l → s.Bounded l.params)
    (hparents : ∀ decl l, s.lineageOf decl = some l → ∀ n ∈ l.parents, n.toTy.AptUnder s l.params .var)
    (hσ : Siteless σ) (happ : ∀ p ∈ vars, (σ (.declared p)).Applied s []) :
    s.Hereditary vars σ (Ty.AptUnder s vars σ) where
  applied ht := ht.applied
  shape heq ht := by rwa [← shape_iff hbounds, ← heq, shape_iff hbounds]
  unknown hw := .var hw
  arg ht t hta := by
    cases ht with
    | nominal _ _ _ htypes _ => exact htypes t hta
  way ht hway := way hbounds hs hparents hσ happ hway ht
  put {t τ} ht hτ hput := by
    refine ht.rebuild hbounds (Subst.siteless_image τ) fun p hp => ?_
    cases hlook : τ.lookup (.declared p) with
    | none =>
      rw [Subst.image_of_none hlook]
      exact ⟨.var hp, rfl⟩
    | some u =>
      obtain ⟨hclosed, hshape⟩ := hτ p u hlook hp
      rw [Subst.image_of_some hlook]
      refine ⟨(shape_iff hbounds).2 (hput p hp u hlook), ?_⟩
      rw [← hshape, Ty.rebuild_shape]
      exact Ty.rebuild_eq_shape fun v hv => by rw [hclosed] at hv; cases hv

/-! ### What the check says of declared types and targets -/

section Vetted

variable {decl : String} {l : Lineage}

/-- An accepted type that is applied is apt. -/
theorem Setting.Accepts.apt {ps : List TypeVar} (h : s.Accepts t) (hs : s.Hierarchy)
    (hbounds : ∀ decl l, s.lineageOf decl = some l → s.Bounded l.params) (hps : s.Bounded ps)
    (happ : t.Applied s ps) : t.AptUnder s ps .var := by
  obtain ⟨n, m', h⟩ := h
  exact .of_check hs hbounds hps happ (Memory.faithful_empty s) h

/-- The supertypes of a vetted hierarchy are apt. -/
theorem Setting.Vetted.apt_parents (hv : s.Vetted) (hs : s.Hierarchy)
    (hbounds : ∀ decl l, s.lineageOf decl = some l → s.Bounded l.params)
    (hl : s.lineageOf decl = some l) {n : Nominal} (hn : n ∈ l.parents) :
    n.toTy.AptUnder s l.params .var := by
  obtain ⟨d, hd, -, -, -, hparents⟩ := hv.grown.of_lineage hl
  rcases hparents n hn with hdeclared | rfl
  · have haccepts := hv.accepted _ (List.mem_flatMap.2
      ⟨d, hd, List.mem_append_right _ (List.mem_map_of_mem hdeclared)⟩)
    exact haccepts.apt hs hbounds (hbounds decl l hl) (hs.parents decl l hl n hn)
  · exact .nominal hs.object rfl nofun nofun nofun

/-- The bounds of a vetted hierarchy are apt. -/
theorem Setting.Vetted.apt_bounds (hv : s.Vetted) (hs : s.Hierarchy)
    (hbounds : ∀ decl l, s.lineageOf decl = some l → s.Bounded l.params)
    (hl : s.lineageOf decl = some l) {p : TypeVar} (hp : p ∈ l.params) :
    (s.catalog.upper p).AptUnder s l.params .var := by
  obtain ⟨d, hd, -, hfind, hparams, -⟩ := hv.grown.of_lineage hl
  obtain ⟨q, hq, hupper, -⟩ := Declaration.upper_eq hfind (hparams ▸ hp)
  have haccepts := hv.accepted _ (List.mem_flatMap.2
    ⟨d, hd, List.mem_append_left _ (List.mem_map_of_mem hq)⟩)
  rw [← hupper] at haccepts
  exact haccepts.apt hs hbounds (hbounds decl l hl) ((hbounds decl l hl).applied p hp)

/-- Applied types in the arguments of an accepted type are apt. -/
theorem Setting.Accepts.apt_parts {x : Nominal} (h : s.Accepts x.toTy) (hs : s.Hierarchy)
    (hbounds : ∀ decl l, s.lineageOf decl = some l → s.Bounded l.params) {a : Arg} (ha : a ∈ x.args)
    (ht : t ∈ a.parts) (happ : t.Applied s []) : t.AptUnder s [] .var := by
  obtain ⟨n, m', h⟩ := h
  rw [Nominal.toTy, Ty.check] at h
  obtain ⟨params, m₁, hparams, h⟩ := answers_bind.1 h
  have hm₁ := (checkedParams_keepsFaith (s := s.withDepth n) _).answers (Memory.faithful_empty s) hparams
  split at h
  · next hargs =>
    rw [List.isEmpty_iff] at hargs
    rw [hargs] at ha
    cases ha
  · split at h
    · exact absurd h answers_throw
    obtain ⟨_, m₂, hall, -⟩ := answers_bind.1 h
    obtain ⟨m₃, m₄, hm₃, hcheck⟩ := Arg.check_of_checkAll hm₁ hall ha
    cases a with
    | type u =>
      obtain rfl := List.mem_singleton.1 ht
      rw [Arg.check_type _ _ (Arg.not_prim_of_check hcheck)] at hcheck
      exact .of_check hs hbounds (.nil s) happ hm₃ hcheck
    | wild u l =>
      rw [Arg.check] at hcheck
      obtain ⟨_, m₅, hupper, hlower⟩ := answers_bind.1 hcheck
      rcases List.mem_pair.1 ht with rfl | rfl
      · exact .of_check hs hbounds (.nil s) happ hm₃ hupper
      · exact .of_check hs hbounds (.nil s) happ
          ((Ty.check_keepsFaith (s := s.withDepth n) u).answers hm₃ hupper) hlower

end Vetted

namespace Inference

open Setting

variable {m m' : Memory} {decl : String} {l : Lineage} {types : List Ty} {i : Inferred} {x : Nominal}

/-- An accepted target with as many arguments as parameters, each of them an applied type or a wildcard with
bounds that are, or are the type of null. -/
structure Posed (s : Setting) (x : Nominal) : Prop where
  ground : x.toTy.Ground s
  length : x.args.length = (s.paramsOf x.decl).length
  args : ∀ a ∈ x.args, a.Posed (Ty.Applied s [])

namespace Posed

/-- A posed target may be asked for: simple types stand in its arguments. -/
theorem asked (h : Posed s x) : s.Asked [] x.toTy := by
  refine .inr ⟨x, rfl, fun a ha t ht => ?_⟩
  rcases (h.args a ha).parts t ht with rfl | happ
  · exact ⟨fun k => by rw [Ty.Regular]; trivial, nofun⟩
  · exact ⟨happ.regular_in, happ.vars⟩

/-- A target without wildcards is an applied type. -/
theorem applied (h : Posed s x) (hwild : ∀ a ∈ x.args, a.isWild = false) : x.toTy.Applied s [] := by
  obtain ⟨l, hl, -⟩ : s.Applies x.decl x.args.length := by
    have hreg := h.ground.regular rfl
    rw [Nominal.toTy, Ty.Regular] at hreg
    exact hreg.1
  exact .nominal hl (paramsOf_eq hl ▸ h.length) hwild fun t ht => h.args _ ht

end Posed

/-- Over a plain catalog, and for a closed target that may be asked for, arguments are simple. -/
theorem Concludes.simple (hs : s.Regular .full) (hplain : s.Plain) (hc : Concludes s x.toTy l m m' types i)
    (hnames : (l.params.map TypeVar.name).Nodup) (htarget : x.toTy.Closed s .full)
    (hasked : s.Asked [] x.toTy) (htame : m.Tame s .full) : ∀ t ∈ types, t.Simple s [] := by
  obtain ⟨site, m₁, m₂, o, hst, hsearch, hfound, -, -⟩ := hc.found
  have hstands := stands_infer hs hc.lineage hnames htarget.whole htarget.vars hst.faithful
    (hst.keeps.tame htame) site
  exact ((searchWithin_simple hs hplain hstands (simple_infer hplain hc.lineage hasked site) hsearch).2
    types hfound).1

/-- **Inferred arguments have a property that is handed on**, if the bounds of the parameters, the declaration
applied to them, and the target have it. -/
theorem Concludes.all (hs : s.Regular .full) (hplain : s.Plain) (hc : Concludes s x.toTy l m m' types i)
    (hnames : (l.params.map TypeVar.name).Nodup) (htarget : x.toTy.Closed s .full)
    (hasked : s.Asked [] x.toTy) (htame : m.Tame s .full) (hlen : l.params.length = types.length)
    (hA : s.Hereditary l.params (Subst.zip l.params types).image A) (hposed : ∀ a ∈ x.args, a.Posed A)
    (hself : (∀ a ∈ x.args, a.isWild = false) → A x.toTy) (hbounds : ∀ p ∈ l.params, A (s.catalog.upper p))
    (hown : A (.nominal .common i.decl (ownArgs l.params))) : ∀ t ∈ types, A t := by
  obtain ⟨site, m₁, m₂, o, hst, hsearch, hfound, -, -⟩ := hc.found
  have hstands := stands_infer hs hc.lineage hnames htarget.whole htarget.vars hst.faithful
    (hst.keeps.tame htame) site
  have hsimple := simple_infer hplain hc.lineage hasked site
  have hacceptable : ∀ t ∈ types, t ≠ .null := fun t ht =>
    (search_proper s (Problem.Kept.start s l.params _) _ _ _ hsearch types hfound t ht).1.1
  have hnull : ∀ w ∈ l.params, (Subst.zip l.params types).image (.declared w) ≠ .null := by
    intro w hw himage
    obtain ⟨t, ht, heq⟩ := image_zip_cases hw (Nat.le_of_eq hlen)
    rw [himage] at heq
    cases t with
    | null => exact hacceptable _ ht rfl
    | _ => cases heq
  have hstart : (inferProblem s site i.decl l.params x.toTy).All
      fun t => t = .null ∨ A t ∨ t.shape = x.toTy.shape := by
    refine ⟨fun c hc => ?_, fun u hu c hc => ?_, fun u hu t ht => ?_⟩
    · rcases List.mem_append.1 hc with hc | hc
      · obtain ⟨p, hp, rfl | rfl⟩ := Problem.pending_start hc
        · exact ⟨.inr (.inl (hA.unknown hp)), .inr (.inl (hbounds p hp))⟩
        · exact ⟨.inr (.inl (hA.unknown hp)), .inl rfl⟩
      · obtain rfl := List.mem_singleton.1 hc
        refine ⟨.inr (.inl (hA.shape ?_ hown)), .inr (.inr rfl)⟩
        rw [Ty.shape_nominal, Ty.shape_nominal]
    · obtain ⟨p, _, rfl⟩ := List.mem_map.1 hu
      cases hc
    · obtain ⟨p, _, rfl⟩ := List.mem_map.1 hu
      cases ht
  have hall := searchWithin_all hs hplain hstands hsimple hsearch hfound
    (hA.stable htarget.vars hposed hself hnull) hstart
  intro t ht
  rcases hall t ht with rfl | hAt | heq
  · exact absurd rfl (hacceptable _ ht)
  · exact hAt
  · exact hA.of_target hself (hc.simple hs hplain hnames htarget hasked htame t ht) heq

section Hierarchy

variable (hv : s.Vetted) (hs : s.Hierarchy)
  (hbounds : ∀ decl l, s.lineageOf decl = some l → s.Bounded l.params) (hx : Posed s x)
  (htame : m.Tame s .full) (hc : Concludes s x.toTy l m m' types i)
include hv hs hbounds hx htame hc

/-- Inferred arguments do, as far as derivations go. -/
theorem Concludes.holds_posed : i.Holds s .full x.toTy l types :=
  hc.holds hv.regular (hs.names _ _ hc.lineage) hx.ground.closed htame
    (fun _ t ht => (hc.simple hv.regular (hs.plain hbounds) (hs.names _ _ hc.lineage) hx.ground.closed
      hx.asked htame t ht).vars_eq_nil) nofun

/-- **Inferred arguments are applied types.** -/
theorem Concludes.applied : ∀ t ∈ types, t.Applied s [] := by
  have hholds := hc.holds_posed hv hs hbounds hx htame
  intro t ht
  have happ := hc.all hv.regular (hs.plain hbounds) (hs.names _ _ hc.lineage) hx.ground.closed hx.asked htame
    hholds.length (A := Ty.Applied s l.params) (Ty.Applied.hereditary hs)
    (fun a ha => (hx.args a ha).imp fun t _ h => h.mono nofun) (fun hwild => (hx.applied hwild).mono nofun)
    (hbounds _ _ hc.lineage).applied (Hierarchy.applied_own hc.lineage) t ht
  exact happ.of_closed (hholds.closes.vars t ht)

/-- **Inferred arguments are below the bounds of their parameters by ways up.** -/
theorem Concludes.conforms : s.Conforms .var l.params types := by
  have hholds := hc.holds_posed hv hs hbounds hx htame
  have happ := hc.applied hv hs hbounds hx htame
  have hparams := hbounds _ _ hc.lineage
  rintro ⟨p, t⟩ hpt
  obtain ⟨hp, ht⟩ := List.of_mem_zip hpt
  have hbound := hparams.instance (Nat.le_of_eq hholds.length) happ hp
  have hbelow := hholds.bounds p hp
  rw [Subst.image_of_some (Subst.lookup_zip_of_mem hholds.length hparams.keys hpt),
    ← Ty.shape_rebuild (Subst.siteless_image _) (s.catalog.upper p)] at hbelow
  exact (hs.beneath_iff_below (hs.plain hbounds).regular (happ t ht) hbound).2 hbelow

/-- **Inferred arguments are apt.** -/
theorem Concludes.apt : ∀ t ∈ types, t.AptUnder s [] .var := by
  have hholds := hc.holds_posed hv hs hbounds hx htame
  have happ := hc.applied hv hs hbounds hx htame
  have hparams := hbounds _ _ hc.lineage
  have hle := Nat.le_of_eq hholds.length
  have hsite := Subst.siteless_image (Subst.zip l.params types)
  have himage : ∀ p ∈ l.params, ((Subst.zip l.params types).image (.declared p)).Applied s [] := by
    intro p hp
    obtain ⟨t, ht, heq⟩ := image_zip_cases hp hle
    exact heq ▸ (happ t ht).shape
  have hbound : ∀ p ∈ l.params, s.Beneath ((Subst.zip l.params types).image (.declared p))
      ((s.catalog.upper p).rebuild (Subst.zip l.params types).image) := by
    intro p hp
    have hbeneath := (hc.conforms hv hs hbounds hx htame).beneath hparams hle hp
    rwa [show Ty.rebuild .var _ = _ from hsite _, show Ty.rebuild .var _ = _ from Ty.shape_rebuild hsite _]
      at hbeneath
  have hfill : ∀ {t : Ty}, t.AptUnder s l.params .var →
      t.AptUnder s l.params (Subst.zip l.params types).image := .fill hs hparams hsite himage hbound
  have hA := Ty.AptUnder.hereditary hs hbounds
    (fun _ _ hl _ hn => hv.apt_parents hs hbounds hl hn) hsite himage
  intro t ht
  refine (hc.all hv.regular (hs.plain hbounds) (hs.names _ _ hc.lineage) hx.ground.closed hx.asked htame
    hholds.length hA (fun a ha => (hx.args a ha).imp fun t ht h => ?_) (fun hwild => ?_)
    (fun p hp => hfill (hv.apt_bounds hs hbounds hc.lineage hp))
    (hfill (.own hc.lineage hparams)) t ht).of_closed hbounds (hholds.closes.vars t ht)
  · exact (hx.ground.accepted.apt_parts hs hbounds ha ht h).of_closed hbounds h.closed
  · exact (hx.ground.accepted.apt hs hbounds (.nil s) (hx.applied hwild)).of_closed hbounds hx.ground.vars

end Hierarchy

/-- **What is inferred passes the check**, whatever was asked before, over a vetted hierarchy with applied
bounds. -/
theorem inferred_passes (hv : s.Vetted) (hs : s.Hierarchy)
    (hbounds : ∀ decl l, s.lineageOf decl = some l → s.Bounded l.params) (hx : Posed s x)
    (hm : m.Faithful s) (htame : m.Tame s .full) (h : (infer s x.toTy decl).Answers m i m') :
    s.Passes fun s => i.result.toTy.check s := by
  obtain ⟨rfl, l, types, hc⟩ := infer_answers hm h
  refine Ty.AptUnder.passes (σ := .var) hv.grown hs hbounds ?_
  rw [Nominal.toTy, hc.decl, hc.args]
  have hlen := (hc.holds_posed hv hs hbounds hx htame).length
  refine .nominal hc.lineage (by rw [List.length_map, hlen]) (fun a ha => ?_) (fun t ht => ?_) ?_
  · obtain ⟨t, -, rfl⟩ := List.mem_map.1 ha
    rfl
  · obtain ⟨u, hu, hut⟩ := List.mem_map.1 ht
    injection hut with hut
    exact hut ▸ hc.apt hv hs hbounds hx htame u hu
  · rw [Instance.types_map]
    exact hc.conforms hv hs hbounds hx htame

/-- `Sorted<K extends Comparable<K>, V extends Iterable<K>>` is inferred for
`Map<String, ? extends List<String>>`, and `Sorted<String, List<String>>` passes the check, although the bound
of the second parameter depends on the first argument. -/
theorem inferred_passes_sorted :
    let s : Setting :=
      { catalog := .extended [{ name := "Sorted",
                                params := [⟨"K", "Comparable<K>"⟩, ⟨"V", "Iterable<K>"⟩],
                                parents := ["Map<K, V>"] }] }
    let string : Site → Ty := fun site => .nominal site "String" []
    let target : Nominal := ⟨⟨.given 0, [0]⟩, "Map", [.type (string ⟨.given 0, [4]⟩),
      .wild (.nominal ⟨.given 0, [22]⟩ "List" [.type (string ⟨.given 0, [27]⟩)]) .null]⟩
    ∃ i m', (infer s target.toTy "Sorted").Answers {} i m' ∧
      i.result.toTy.render = "Sorted<String, List<String>>" ∧ s.Passes fun s => i.result.toTy.check s := by
  intro s string target
  obtain ⟨horder, hdecls, hbounds, hcoherent, haccepts⟩ : s.catalog.InOrder ∧
      (∀ d ∈ s.catalog.decls, (d.vars.map TypeVar.name).Nodup ∧
        ∀ n ∈ d.parents, n.toTy.isApplied s d.vars = true) ∧
      (∀ d ∈ s.catalog.decls, (d.vars.map TypeVar.name).Nodup ∧
        ∀ v ∈ d.vars, (s.catalog.upper v).isApplied s d.vars = true) ∧ s.isCoherent = true ∧
      ∀ t ∈ s.catalog.declaredTypes, s.acceptsWithin 20 t = true ∧ t.sparing = true := by
    decide +kernel
  obtain ⟨hlength, htarget, happ, hinfer⟩ :
      target.args.length = (s.paramsOf target.decl).length ∧ s.acceptsWithin 20 target.toTy = true ∧
        (∀ t ∈ target.args.flatMap Arg.parts, t = .null ∨ t.isApplied s [] = true) ∧
        ((infer s target.toTy "Sorted").outcome {}).1.map (fun i =>
          i.result.toTy.render == "Sorted<String, List<String>>") = .ok true := by decide +kernel
  obtain ⟨i, m', hinfer, hi⟩ := exists_answers hinfer
  have hgrown : s.catalog.Grown := Catalog.grown_extended _
  have hs : s.Hierarchy := .of_grown hgrown horder hdecls hcoherent
  have hx : Posed s target := by
    refine ⟨⟨rfl, rfl, .of_within htarget, .inr (by decide)⟩, hlength, fun a ha => ?_⟩
    have hparts : ∀ t ∈ a.parts, t = .null ∨ t.Applied s [] := fun t ht =>
      (happ t (List.mem_flatMap.2 ⟨a, ha, ht⟩)).imp_right .of_isApplied
    rcases List.mem_pair.1 ha with rfl | rfl
    · exact (hparts _ List.mem_cons_self).resolve_left nofun
    · exact ⟨hparts _ List.mem_cons_self, .inl rfl⟩
  exact ⟨i, m', hinfer, beq_iff_eq.1 hi, inferred_passes (.of_within hgrown haccepts (by decide)) hs
    (.of_grown hgrown hbounds) hx (Memory.faithful_empty s) (Memory.tame_empty s .full) hinfer⟩

/-- With `Bar` below `Iterable<String>` and `Foo<T>` below `Bar`, the arguments `Foo` and `FooTwo<Foo>` are
inferred for the parameters `W extends Bar` and `V extends FooTwo<W>`, and each is below its bound. But the raw
`Foo` is not below the bound of `X extends Iterable<String>`, so that `FooTwo<Foo>` does not pass the check. -/
theorem passes_refuted :
    let s : Setting :=
      { catalog := .extended [{ name := "Bar", parents := ["Iterable<String>"] },
          { name := "Foo", params := [⟨"T", ""⟩], parents := ["Bar"] },
          { name := "FooTwo", params := [⟨"X", "Iterable<String>"⟩] },
          { name := "G", params := [⟨"W", "Bar"⟩, ⟨"V", "FooTwo<W>"⟩], parents := ["Comparable<W>"] }] }
    let target : Ty := .nominal ⟨.given 0, [0]⟩ "Comparable" [.type (.nominal ⟨.given 0, [11]⟩ "Foo" [])]
    ((target.check s).outcome {}).1 = .ok () ∧
      ((infer s target "G").outcome {}).1.map (fun i => i.result.toTy.render) = .ok "G<Foo, FooTwo<Foo>>" ∧
        ((infer s target "G" >>= fun i => i.result.toTy.check s).outcome {}).1.mapError
          Failure.kind? = .error (some .malformed) := by
  decide +kernel

end Inference

end Generics
