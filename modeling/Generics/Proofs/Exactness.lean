/-
# Inference as the inverse of inheritance

In a catalog whose supertypes and bounds are built from declarations and parameters only, the
arguments of a target are found again from below. If all parameters of a declaration show in what it
looks like seen as the declaration of the target, inferring succeeds just where some arguments do,
finds the only ones, and makes no choice on the way (`infer_exact`).
-/

import Generics.Proofs.Agreement
import Generics.Proofs.Determining
import Generics.Proofs.Instances
import Generics.Proofs.Soundness

namespace Generics

/-! ### Types built from declarations -/

mutual
/-- Whether a type is built from declarations and their parameters only. -/
def Ty.isBuilt : Ty → Bool
  | .nominal _ _ args => Arg.allBuilt args
  | .var (.declared _) => true
  | _ => false

/-- Whether an argument is such a type. -/
def Arg.isBuilt : Arg → Bool
  | .type t => t.isBuilt
  | .wild _ _ => false

/-- Whether all arguments are such types. -/
def Arg.allBuilt : List Arg → Bool
  | [] => true
  | a :: as => a.isBuilt && Arg.allBuilt as
end

/-- All arguments are built if each one is. -/
theorem Arg.allBuilt_iff {as : List Arg} : Arg.allBuilt as = true ↔ ∀ a ∈ as, a.isBuilt = true := by
  induction as with
  | nil => simp [Arg.allBuilt]
  | cons a as ih => simp [Arg.allBuilt, ih]

/-- An applied declaration is built if its arguments are. -/
theorem Ty.isBuilt_nominal {site : Site} {decl : String} {args : List Arg} :
    (Ty.nominal site decl args).isBuilt = true ↔ ∀ a ∈ args, a.isBuilt = true := by
  rw [Ty.isBuilt, Arg.allBuilt_iff]

mutual
/-- Built types are flat, sparing and plain. -/
theorem Ty.isBuilt_parts : ∀ {t : Ty}, t.isBuilt = true →
    t.isFlat = true ∧ t.sparing = true ∧ t.isPlain = true
  | .nominal _ _ args, h => by
    rw [Ty.isBuilt] at h
    rw [Ty.isFlat, Ty.sparing, Ty.isPlain]
    exact Arg.allBuilt_parts h
  | .var _, _ => ⟨rfl, rfl, rfl⟩

/-- Built arguments are flat, sparing and plain. -/
theorem Arg.allBuilt_parts : ∀ {as : List Arg}, Arg.allBuilt as = true →
    Arg.allFlat as = true ∧ Arg.allSparing as = true ∧ Arg.allPlain as = true
  | [], _ => ⟨rfl, rfl, rfl⟩
  | .type t :: as, h => by
    rw [Arg.allBuilt, Arg.isBuilt, Bool.and_eq_true] at h
    obtain ⟨hf, hs, hp⟩ := Ty.isBuilt_parts h.1
    obtain ⟨hfs, hss, hps⟩ := Arg.allBuilt_parts h.2
    rw [Arg.allFlat, Arg.allSparing, Arg.allPlain, Arg.isFlat, Arg.sparing, Arg.isPlain]
    exact ⟨by rw [hf, hfs]; rfl, by rw [hs, hss]; rfl, by rw [hp, hps]; rfl⟩
  | .wild _ _ :: _, h => by
    rw [Arg.allBuilt, Arg.isBuilt] at h
    cases h
end

mutual
/-- Built types in the place of the variables keep a type built. -/
theorem Ty.isBuilt_rebuild {f : Var → Ty} : ∀ {t : Ty}, t.isBuilt = true →
    (∀ v ∈ t.vars, (f v).isBuilt = true) → (t.rebuild f).isBuilt = true
  | .nominal _ _ args, h, hf => by
    rw [Ty.isBuilt] at h
    rw [Ty.rebuild, Ty.isBuilt]
    exact Arg.allBuilt_rebuild h hf
  | .var v, _, hf => hf v (List.mem_singleton_self v)

/-- Built types in the place of the variables keep arguments built. -/
theorem Arg.allBuilt_rebuild {f : Var → Ty} : ∀ {as : List Arg}, Arg.allBuilt as = true →
    (∀ v ∈ Arg.varsAll as, (f v).isBuilt = true) → Arg.allBuilt (Arg.rebuildAll f as) = true
  | [], _, _ => rfl
  | .type t :: as, h, hf => by
    rw [Arg.allBuilt, Arg.isBuilt, Bool.and_eq_true] at h
    rw [Arg.rebuildAll, Arg.rebuild, Arg.allBuilt, Arg.isBuilt, Bool.and_eq_true]
    rw [Arg.varsAll] at hf
    exact ⟨Ty.isBuilt_rebuild h.1 fun v hv => hf v (List.mem_append_left _ hv),
      Arg.allBuilt_rebuild h.2 fun v hv => hf v (List.mem_append_right _ hv)⟩
  | .wild _ _ :: _, h, _ => by
    rw [Arg.allBuilt, Arg.isBuilt] at h
    cases h
end

mutual
/-- Whether a type is built is a matter of its shape. -/
theorem Ty.isBuilt_shape : ∀ t : Ty, t.shape.isBuilt = t.isBuilt
  | .prim _ => rfl
  | .null => rfl
  | .nominal _ _ args => by
    rw [Ty.shape, Ty.rebuild, Ty.isBuilt, Ty.isBuilt, Arg.allBuilt_shape args]
  | .array _ => rfl
  | .inter _ _ => rfl
  | .var _ => rfl

/-- Whether arguments are built is a matter of their shapes. -/
theorem Arg.allBuilt_shape :
    ∀ as : List Arg, Arg.allBuilt (Arg.rebuildAll .var as) = Arg.allBuilt as
  | [] => rfl
  | .type t :: as => by
    have ht := Ty.isBuilt_shape t
    rw [Ty.shape] at ht
    rw [Arg.rebuildAll, Arg.rebuild, Arg.allBuilt, Arg.allBuilt, Arg.isBuilt, Arg.isBuilt, ht,
      Arg.allBuilt_shape as]
  | .wild _ _ :: _ => rfl
end

mutual
/-- The variables of a built type are found among its arguments. -/
theorem Ty.exposes_of_built {v : Var} : ∀ {t : Ty}, t.isBuilt = true → v ∈ t.vars → t.Exposes v
  | .nominal _ _ args, h, hv => by
    rw [Ty.isBuilt] at h
    obtain ⟨t, ht, hexp⟩ := Arg.exposes_of_built h hv
    exact .arg ht hexp
  | .var w, _, hv => by
    rw [List.mem_singleton.1 hv]
    exact .var

/-- A variable in built arguments is exposed by one of them. -/
theorem Arg.exposes_of_built {v : Var} : ∀ {as : List Arg}, Arg.allBuilt as = true →
    v ∈ Arg.varsAll as → ∃ t, Arg.type t ∈ as ∧ t.Exposes v
  | .type t :: as, h, hv => by
    rw [Arg.allBuilt, Arg.isBuilt, Bool.and_eq_true] at h
    rw [Arg.varsAll, List.mem_append] at hv
    rcases hv with hv | hv
    · exact ⟨t, List.mem_cons_self, Ty.exposes_of_built h.1 hv⟩
    · obtain ⟨u, hu, hexp⟩ := Arg.exposes_of_built h.2 hv
      exact ⟨u, List.mem_cons_of_mem _ hu, hexp⟩
  | .wild _ _ :: _, h, _ => by
    rw [Arg.allBuilt, Arg.isBuilt] at h
    cases h
end

mutual
/-- Plain types of one shape are equal. -/
theorem Ty.alike_of_shape : ∀ {a b : Ty}, a.isPlain = true → a.shape = b.shape →
    a.fingerprint = b.fingerprint ∧ a.sameShape b = true
  | .prim p, b, _, h => by
    rw [Ty.of_shape_prim h.symm]
    exact ⟨rfl, by rw [Ty.sameShape, beq_self_eq_true]⟩
  | .null, b, _, h => by
    cases b with
    | null => exact ⟨rfl, by rw [Ty.sameShape]⟩
    | _ => cases h
  | .nominal _ d as, b, ha, h => by
    cases b with
    | nominal _ e bs =>
      rw [Ty.shape, Ty.shape, Ty.rebuild, Ty.rebuild, Ty.nominal.injEq] at h
      obtain ⟨_, rfl, hargs⟩ := h
      rw [Ty.isPlain] at ha
      obtain ⟨hmix, hsame⟩ := Arg.alikeAll_of_shape ha hargs
      rw [Ty.fingerprint, Ty.fingerprint, hmix, Ty.sameShape, beq_self_eq_true, hsame]
      exact ⟨rfl, rfl⟩
    | _ => cases h
  | .array a, b, ha, h => by
    cases b with
    | array b =>
      rw [Ty.isPlain] at ha
      obtain ⟨hprint, hsame⟩ := Ty.alike_of_shape ha (Ty.array.inj h)
      rw [Ty.fingerprint, Ty.fingerprint, hprint, Ty.sameShape]
      exact ⟨rfl, hsame⟩
    | _ => cases h
  | .var v, b, _, h => by
    cases b with
    | var w =>
      rw [Ty.shape_var, Ty.shape_var] at h
      rw [h]
      exact ⟨rfl, by rw [Ty.sameShape, beq_self_eq_true]⟩
    | _ => cases h

/-- Plain arguments that look alike have one fingerprint and one shape. -/
theorem Arg.alikeAll_of_shape : ∀ {as bs : List Arg}, Arg.allPlain as = true →
    Arg.rebuildAll .var as = Arg.rebuildAll .var bs →
      (∀ h, Arg.mixAll h as = Arg.mixAll h bs) ∧ Arg.sameShapeAll as bs = true
  | [], bs, _, h => by
    cases bs with
    | nil => exact ⟨fun _ => rfl, by rw [Arg.sameShapeAll]⟩
    | cons _ _ => cases h
  | .type a :: as, bs, ha, h => by
    cases bs with
    | nil => cases h
    | cons b bs =>
      rw [Arg.rebuildAll, Arg.rebuildAll, List.cons.injEq] at h
      cases b with
      | wild _ _ => cases h.1
      | type b =>
        rw [Arg.allPlain, Arg.isPlain, Bool.and_eq_true] at ha
        obtain ⟨hprint, hsame⟩ := Ty.alike_of_shape ha.1 (Arg.type.inj h.1)
        obtain ⟨hmix, hsames⟩ := Arg.alikeAll_of_shape ha.2 h.2
        refine ⟨fun x => ?_, by rw [Arg.sameShapeAll, Arg.sameShape, hsame, hsames]; rfl⟩
        rw [Arg.mixAll, Arg.mixAll, Arg.fingerprint, Arg.fingerprint, hprint, hmix]
  | .wild _ _ :: _, _, ha, _ => by
    rw [Arg.allPlain, Arg.isPlain] at ha
    cases ha
end

/-- What stands for an exposed variable inherits what the parts of a type inherit. -/
theorem Ty.Exposes.part {P : Ty → Prop} {f : Var → Ty} {v : Var} {t : Ty} (h : t.Exposes v)
    (hP : ∀ site decl args u, P (.nominal site decl args) → Arg.type u ∈ args → P u)
    (ht : P (t.rebuild f)) : P (f v) := by
  induction h with
  | var => exact ht
  | arg hmem _ ih =>
    rw [Ty.rebuild_nominal] at ht
    exact ih (hP _ _ _ _ ht (List.mem_map_of_mem hmem))

/-! ### Catalogs built from declarations -/

/-- A well-formed type that is built from declarations and some parameters. -/
structure Setting.Builds (s : Setting) (params : List TypeVar) (t : Ty) : Prop where
  built : t.isBuilt = true
  accepted : s.Accepts t
  vars : ∀ v ∈ t.vars, ∃ p ∈ params, v = .declared p

/-- Well-formed types that are built are regular in both fragments. -/
theorem Setting.Builds.regular {s : Setting} {params : List TypeVar} {t : Ty} (h : s.Builds params t) :
    ∀ k, t.Regular s k := by
  obtain ⟨hflat, hsparing, hplain⟩ := Ty.isBuilt_parts h.built
  have hfull := h.accepted.regular hflat hsparing
  intro k
  cases k with
  | full => exact hfull
  | plain => exact hfull.plain hplain

/-- A type built from no parameters is closed. -/
theorem Setting.Builds.closed {s : Setting} {t : Ty} (h : s.Builds [] t) : t.vars = [] :=
  List.eq_nil_iff_forall_not_mem.2 fun v hv => by
    obtain ⟨_, hno, _⟩ := h.vars v hv
    cases hno

/-- Inheritance without cycles from a top declaration without parameters, where all supertypes and
bounds are well-formed and built from declarations and the parameters of their own declaration, and
parameters have names of their own and are not bounded by themselves. -/
structure Setting.Built (s : Setting) : Prop where
  object : s.PlainObject
  acyclic : s.Acyclic
  names : ∀ decl l, s.lineageOf decl = some l → (l.params.map TypeVar.name).Nodup
  bounded : ∀ decl l, s.lineageOf decl = some l → ∀ p ∈ l.params, s.catalog.selfBounded p = false
  parents : ∀ decl l, s.lineageOf decl = some l → ∀ n ∈ l.parents, s.Builds l.params n.toTy
  bounds : ∀ decl l, s.lineageOf decl = some l → ∀ p ∈ l.params,
    s.Builds l.params (s.catalog.upper p)

namespace Setting.Built

variable {s : Setting} {decl ancestor : String} {args found : List Arg}

/-- A built setting is regular. -/
theorem regular (hs : s.Built) : s.Regular .plain where
  object := hs.object
  parents decl l hl n hn := by
    have hbuilds := hs.parents decl l hl n hn
    refine ⟨hbuilds.regular .plain, ?_, hbuilds.vars⟩
    rw [← Bool.not_eq_true]
    exact Inference.not_hasWild (hbuilds.regular .plain)
  bounds decl l hl p hp := ⟨(hs.bounds decl l hl p hp).regular .plain, (hs.bounds decl l hl p hp).vars⟩
  arrays hk := by cases hk
  ranked hk := by cases hk
  resolved hk := by cases hk

/-- Questions over a built setting are plain. -/
theorem plain (hs : s.Built) : s.Plain where
  regular := hs.regular
  parents k decl l hl n hn := (hs.parents decl l hl n hn).regular k
  bounds k decl l hl p hp := (hs.bounds decl l hl p hp).regular k

/-- **What is found is built from what the arguments are built from.** -/
theorem seenAs (hs : s.Built) (h : s.SeenAs ancestor decl args found) (hfits : s.Fits decl args)
    (hargs : ∀ a ∈ args, a.isBuilt = true) : ∀ a ∈ found, a.isBuilt = true := by
  induction h with
  | here args => exact hargs
  | @up decl args found parent hne hlead _ ih =>
    obtain ⟨l, hl, hmem, _, _, _⟩ := ParentsRegular.of_leadsTo hs.regular.parents hlead
    refine ih (Fits.inherited hs.regular.parentsFit hlead) fun a ha => ?_
    obtain ⟨b, hb, f, rfl, hf⟩ := mem_inherited hs.regular.parents hlead hfits ha
    have hbuilt := Ty.isBuilt_nominal.1 (hs.parents decl l hl parent hmem).built b hb
    cases b with
    | wild _ _ => cases hbuilt
    | type t =>
      refine Ty.isBuilt_rebuild hbuilt fun v hv => ?_
      obtain ⟨u, hu, hfv⟩ := hf v hv
      rw [hfv, Ty.isBuilt_shape]
      exact hargs _ hu

end Setting.Built

/-- The top declaration is accepted. -/
theorem Setting.PlainObject.accepts {s : Setting} (hs : s.Regular .plain) (hacyc : s.Acyclic) :
    s.Accepts .object := by
  refine (Setting.accepts_iff_apt hs hacyc ?_ rfl).2 ?_
  · rw [Ty.object, Ty.Regular, Arg.RegularAll]
    exact ⟨⟨_, hs.object, .inl rfl⟩, trivial⟩
  · rw [Ty.object, Ty.Apt, Arg.AptAll]
    exact ⟨trivial, _, hs.object, rfl, .inl rfl⟩

/-- A catalog that was read is built from declarations if that can be seen from its types. -/
theorem Setting.Built.of_vetted {s : Setting} (hv : s.Vetted) (hacyc : s.Acyclic)
    (htypes : ∀ t ∈ s.catalog.declaredTypes, t.isBuilt = true)
    (hvars : ∀ d ∈ s.catalog.decls, (d.vars.map TypeVar.name).Nodup ∧
      ∀ v ∈ d.vars, s.catalog.selfBounded v = false) : s.Built := by
  have hs := hv.regular_plain fun t ht => (Ty.isBuilt_parts (htypes t ht)).2.2
  have hbuilds : ∀ {d : Declaration} {l : Lineage} {t : Ty}, d ∈ s.catalog.decls →
      t ∈ d.params.map Parameter.upper ++ d.parents.map Nominal.toTy →
        (∀ v ∈ t.vars, ∃ p ∈ l.params, v = .declared p) → s.Builds l.params t := by
    intro d l t hd ht hvars
    have hmem : t ∈ s.catalog.declaredTypes := List.mem_flatMap.2 ⟨d, hd, ht⟩
    exact ⟨htypes t hmem, hv.accepted t hmem, hvars⟩
  refine ⟨hs.object, hacyc, fun decl l hl => ?_, fun decl l hl p hp => ?_, fun decl l hl n hn => ?_,
    fun decl l hl p hp => ?_⟩
  · obtain ⟨d, hd, -, -, hparams, -⟩ := hv.grown.of_lineage hl
    rw [hparams]
    exact (hvars d hd).1
  · obtain ⟨d, hd, -, -, hparams, -⟩ := hv.grown.of_lineage hl
    exact (hvars d hd).2 p (hparams ▸ hp)
  · obtain ⟨d, hd, -, -, -, hparents⟩ := hv.grown.of_lineage hl
    obtain ⟨_, _, hscope⟩ := hs.parents decl l hl n hn
    rcases hparents n hn with hmem | rfl
    · exact hbuilds hd (List.mem_append_right _ (List.mem_map_of_mem hmem)) hscope
    · exact ⟨rfl, Setting.PlainObject.accepts hs hacyc, hscope⟩
  · obtain ⟨d, hd, -, hfind, hparams, -⟩ := hv.grown.of_lineage hl
    obtain ⟨q, hq, hupper, -⟩ := Declaration.upper_eq hfind (hparams ▸ hp)
    rw [hupper]
    refine hbuilds hd (List.mem_append_left _ (List.mem_map_of_mem hq)) ?_
    rw [← hupper]
    exact (hs.bounds decl l hl p hp).2

/-- Applied declarations are below each other if their arguments are. -/
theorem Below.same_decl {s : Setting} {Γ : Scope} {d : String} {as bs : List Arg} (hbs : bs ≠ [])
    (hlen : as.length = bs.length) (hwild : ∀ a ∈ as, a.isWild = false)
    (h : ∀ x ∈ Arg.demandsAll as bs, Below s Γ x.1 x.2) :
    Below s Γ (.nominal .common d as) (.nominal .common d bs) := by
  have hseen : s.SeenAs d d (Setting.captureArgs Γ.last as) as := by
    rw [Setting.captureArgs_of_no_wild hwild]
    exact .here as
  refine .args (Setting.inherits_refl s d) hbs (fun has => ?_) hseen hlen ?_
  · rw [has, List.length_nil] at hlen
    exact absurd (List.eq_nil_of_length_eq_zero hlen.symm) hbs
  · rwa [Scope.capture_of_no_wild hwild]

namespace Inference

open Query Setting

variable {s : Setting} {m m' : Memory} {decl : String} {l : Lineage} {target : Nominal}
  {types : List Ty}

/-- A supertype, other than the top declaration, is what the way up finds. -/
theorem supertypeAs_seen (hs : s.Regular .plain) {n n' : Nominal} {ancestor : String}
    (hm : m.Faithful s) (hn : n.toTy.Regular s .plain) (hne : ancestor ≠ objectName)
    (h : (s.supertypeAs n ancestor).Answers m (some n') m') :
    s.SeenAs ancestor n.decl (n.args.map Arg.shape) (n'.args.map Arg.shape) := by
  obtain ⟨n₁, m₁, hcapture, hseen⟩ := answers_bind.1 h
  rw [capture, Bool.eq_false_iff.2 (not_hasWild hn)] at hcapture
  obtain ⟨rfl, rfl⟩ := answers_pure.1 hcapture
  rw [Setting.seenAs, if_neg hne] at hseen
  rw [Nominal.toTy, Ty.Regular, Arg.regularAll_iff] at hn
  exact ((climb_answers hs.parents hm hn.2 hseen).2.2 n' rfl).1

/-- The declaration applied to its own parameters, seen as the declaration of the target, shows all
its parameters. -/
structure Shows (s : Setting) (decl : String) (l : Lineage) (ancestor : String) (found : List Arg) :
    Prop where
  seen : s.SeenAs ancestor decl (ownArgs l.params) found
  built : ∀ a ∈ found, a.isBuilt = true
  shown : ∀ p ∈ l.params, ∃ t, Arg.type t ∈ found ∧ t.Exposes (.declared p)

/-- A declaration can be applied to its own parameters. -/
theorem fits_own (hl : s.lineageOf decl = some l) : s.Fits decl (ownArgs l.params) := by
  refine ⟨⟨l, hl, .inr (List.length_map _)⟩, fun a ha => ?_⟩
  obtain ⟨p, _, rfl⟩ := List.mem_map.1 ha
  rfl

/-- Own parameters have no sites. -/
theorem shape_own (params : List TypeVar) : (ownArgs params).map Arg.shape = ownArgs params := by
  rw [ownArgs, List.map_map]
  rfl

/-- A declaration applied to its own parameters is regular. -/
theorem regular_own (hl : s.lineageOf decl = some l) (site : Site) (k : Fragment) :
    (Ty.nominal site decl (ownArgs l.params)).Regular s k := by
  rw [Ty.Regular, Arg.regularAll_iff]
  refine ⟨(fits_own hl).1, fun a ha => ?_⟩
  obtain ⟨p, _, rfl⟩ := List.mem_map.1 ha
  rw [Arg.Regular, Ty.Regular]
  trivial

/-- What the supertype shows, the way up shows. -/
theorem Shows.of_supertypeAs (hs : s.Built) (hl : s.lineageOf decl = some l) {ancestor : String}
    (hne : ancestor ≠ objectName) {site : Site} {seen : Nominal} (hm : m.Faithful s)
    (h : (s.supertypeAs ⟨site, decl, ownArgs l.params⟩ ancestor).Answers m (some seen) m')
    (hoccurs : ∀ p ∈ l.params, .declared p ∈ seen.toTy.vars) :
    Shows s decl l ancestor (seen.args.map Arg.shape) := by
  have hseen := supertypeAs_seen hs.regular (n := ⟨site, decl, ownArgs l.params⟩) hm
    (regular_own hl site .plain) hne h
  rw [shape_own] at hseen
  have hbuilt := hs.seenAs hseen (fits_own hl) fun a ha => by
    obtain ⟨p, _, rfl⟩ := List.mem_map.1 ha
    rfl
  refine ⟨hseen, hbuilt, fun p hp => ?_⟩
  refine Arg.exposes_of_built (Arg.allBuilt_iff.2 hbuilt) ?_
  have hp' := hoccurs p hp
  rw [← Ty.vars_shape, Nominal.toTy, Ty.shape_nominal] at hp'
  exact hp'

namespace Instance

/-- **The arguments of the target are what is shown, with the inferred arguments put in.** -/
theorem args_eq (hs : s.Built) (hl : s.lineageOf decl = some l)
    (h : Instance s decl l target.toTy types) (htarget : s.Builds [] target.toTy)
    (hargs : target.args ≠ []) {found : List Arg}
    (hseen : s.SeenAs target.decl decl (ownArgs l.params) found) :
    found.map (Arg.rebuild (Subst.zip l.params types).image) = target.args.map Arg.shape := by
  have hown : (ownArgs l.params).map (Arg.rebuild (Subst.zip l.params types).image) =
      (types.map Ty.shape).map .type := by
    rw [← Subst.image_zip h.length (keys_nodup (hs.names decl l hl)), ownArgs, List.map_map,
      List.map_map]
    rfl
  have hwild : ∀ a ∈ (types.map Ty.shape).map Arg.type, a.isWild = false := by
    intro a ha
    obtain ⟨t, _, rfl⟩ := List.mem_map.1 ha
    rfl
  have hseen' := hseen.rebuild hs.regular.parentsFit hs.regular.parentsOwn
    (Subst.siteless_image (Subst.zip l.params types)) (fits_own hl)
  rw [hown] at hseen'
  have hfits : s.Fits decl ((types.map Ty.shape).map .type) :=
    ⟨⟨l, hl, .inr (by simpa using h.length.symm)⟩, hwild⟩
  obtain ⟨happlies, hnowild⟩ := hseen'.fits hs.regular.parentsFit hfits
  have hregular := hseen'.regular hs.regular hfits (P := fun _ => False)
    (fun a ha => by
      obtain ⟨t, ht, rfl⟩ := List.mem_map.1 ha
      obtain ⟨u, hu, rfl⟩ := List.mem_map.1 ht
      exact (h.regular u hu).shape)
    (fun a ha v hv => by
      obtain ⟨t, ht, rfl⟩ := List.mem_map.1 ha
      obtain ⟨u, hu, rfl⟩ := List.mem_map.1 ht
      rw [Arg.vars, Ty.vars_shape, h.closed u hu] at hv
      cases hv)
  have hbelow := h.below (Memory.scope {})
  have hbs : target.args.map Arg.shape ≠ [] := by simpa using hargs
  have htw : ∀ b ∈ target.args.map Arg.shape, b.isWild = false :=
    isWild_shapes (htarget.regular .plain)
  rw [Nominal.toTy, Ty.shape_nominal, Below.nominal_cons hbs, captureArgs_of_no_wild hwild,
    Scope.capture_of_no_wild hwild] at hbelow
  obtain ⟨_, _, cs, hcs, hlen, hdem⟩ := hbelow
  obtain rfl := hcs.unique hseen'
  have htargetReg := (htarget.regular .plain).shape
  have htargetVars := htarget.closed
  rw [← Ty.vars_shape] at htargetVars
  rw [Nominal.toTy, Ty.shape_nominal] at htargetReg htargetVars
  have heq := Below.antisymm hs.regular hs.acyclic
    (Below.same_decl (d := target.decl) hbs hlen hnowild hdem)
    (Below.same_decl (fun hnil => hbs ?_) hlen.symm htw (demandsAll_swap hnowild htw hdem))
    ?_ htargetReg ?_ htargetVars
  · exact (Ty.nominal.inj heq).2.2
  · rw [hnil, List.length_nil] at hlen
    exact List.eq_nil_of_length_eq_zero hlen.symm
  · rw [Ty.Regular, Arg.regularAll_iff]
    exact ⟨happlies, fun a ha => (hregular a ha).1⟩
  · refine List.eq_nil_iff_forall_not_mem.2 fun v hv => ?_
    obtain ⟨a, ha, hv⟩ := Arg.mem_varsAll.1 hv
    exact (hregular a ha).2 v hv

/-- **Arguments that are shown are parts of the target.** -/
theorem parts (hs : s.Built) (hl : s.lineageOf decl = some l)
    (h : Instance s decl l target.toTy types) (htarget : s.Builds [] target.toTy)
    (hargs : target.args ≠ []) {found : List Arg} (hshows : Shows s decl l target.decl found) :
    ∀ t ∈ types, t.isBuilt = true ∧ t.Apt s := by
  have hparts : ∀ site decl args u, (Ty.nominal site decl args).isBuilt = true ∧
      (Ty.nominal site decl args).Apt s → Arg.type u ∈ args → u.isBuilt = true ∧ u.Apt s := by
    rintro site decl args u ⟨hbuilt, hapt⟩ hu
    rw [Ty.Apt, Arg.aptAll_iff] at hapt
    exact ⟨Ty.isBuilt_nominal.1 hbuilt _ hu, (hapt.1 _ hu).2⟩
  have hapt := (Setting.accepts_iff_apt hs.regular hs.acyclic (htarget.regular .plain)
    htarget.closed).1 htarget.accepted
  intro t ht
  obtain ⟨i, hi, rfl⟩ := List.getElem_of_mem ht
  have hi' : i < l.params.length := h.length ▸ hi
  obtain ⟨u, hu, hexp⟩ := hshows.shown l.params[i] (List.getElem_mem hi')
  have hmem : Arg.type (u.rebuild (Subst.zip l.params types).image) ∈ target.args.map Arg.shape := by
    rw [← h.args_eq hs hl htarget hargs hshows.seen]
    exact List.mem_map_of_mem hu
  obtain ⟨b, hb, hshape⟩ := List.mem_map.1 hmem
  have himage : (Subst.zip l.params types).image (.declared l.params[i]) = types[i].shape :=
    Subst.image_of_some (Subst.lookup_zip_of_mem h.length (keys_nodup (hs.names decl l hl))
      (List.mem_iff_getElem.2 ⟨i, by rw [List.length_zip]; omega, List.getElem_zip⟩))
  cases b with
  | wild _ _ => cases hshape
  | type y =>
    have hy := hparts _ _ _ y ⟨htarget.built, hapt⟩ hb
    have hshape' : y.shape = u.rebuild (Subst.zip l.params types).image := Arg.type.inj hshape
    rw [← Ty.isBuilt_shape, ← Ty.apt_shape, hshape'] at hy
    have hpart := hexp.part (P := fun t => t.isBuilt = true ∧ t.Apt s) hparts hy
    rwa [himage, Ty.isBuilt_shape, Ty.apt_shape] at hpart

end Instance

/-- Arguments without variables, built from declarations, with which a declaration is well-formed and
below a target. -/
structure Fulfills (s : Setting) (target : Ty) (n : Nominal) : Prop where
  built : n.toTy.isBuilt = true
  closed : n.toTy.vars = []
  accepted : s.Accepts n.toTy
  below : s.Confirms n.toTy target

/-- Apt arguments built from declarations fulfill the target. -/
theorem Instance.fulfills (hs : s.Built) (hl : s.lineageOf decl = some l) {target : Ty}
    (h : Instance s decl l target types) (htarget : s.Builds [] target)
    (hparts : ∀ t ∈ types, t.isBuilt = true ∧ t.Apt s) (site : Site) :
    Fulfills s target ⟨site, decl, types.map .type⟩ := by
  have hbuilt : (Ty.nominal site decl (types.map .type)).isBuilt = true :=
    Ty.isBuilt_nominal.2 fun a ha => by
      obtain ⟨t, ht, rfl⟩ := List.mem_map.1 ha
      exact (hparts t ht).1
  have hvars : (Ty.nominal site decl (types.map .type)).vars = [] :=
    List.eq_nil_iff_forall_not_mem.2 fun v hv => by
      obtain ⟨a, ha, hv⟩ := Arg.mem_varsAll.1 hv
      obtain ⟨t, ht, rfl⟩ := List.mem_map.1 ha
      rw [Arg.vars, h.closed t ht] at hv
      cases hv
  have hreg : (Ty.nominal site decl (types.map .type)).Regular s .plain := by
    rw [Ty.Regular, Arg.regularAll_iff]
    refine ⟨⟨l, hl, .inr (by simpa using h.length.symm)⟩, fun a ha => ?_⟩
    obtain ⟨t, ht, rfl⟩ := List.mem_map.1 ha
    exact h.regular t ht
  have hapt : (Ty.nominal site decl (types.map .type)).Apt s := by
    rw [Ty.Apt, Arg.aptAll_iff]
    refine ⟨fun a ha => ?_, l, hl, ?_, .inr ⟨by simpa using h.length.symm, ?_⟩⟩
    · obtain ⟨t, ht, rfl⟩ := List.mem_map.1 ha
      exact ⟨h.prims t ht, (hparts t ht).2⟩
    · rw [List.find?_eq_none]
      intro p hp
      rw [hs.bounded decl l hl p hp]
      exact Bool.false_ne_true
    · rw [Instance.types_map]
      exact h.bounds
  have hbelow : ∀ Γ, Below s Γ (Ty.nominal site decl (types.map .type)).shape target.shape := by
    intro Γ
    have := h.below Γ
    rw [List.map_map] at this
    rw [Ty.shape_nominal, List.map_map]
    exact this
  obtain ⟨_, depth, hdeep⟩ := Setting.affirms_below hs.regular hs.acyclic hreg
    (htarget.regular .plain) hvars htarget.closed hbelow
  obtain ⟨m', hanswers⟩ := hdeep depth (Nat.le_refl _) {} (Memory.faithful_empty s)
  exact ⟨hbuilt, hvars, (Setting.accepts_iff_apt hs.regular hs.acyclic hreg hvars).2 hapt, depth, m',
    hanswers⟩

/-- Such arguments are an instance. -/
theorem Fulfills.inst (hs : s.Built) {n : Nominal} (hl : s.lineageOf n.decl = some l)
    (h : Fulfills s target.toTy n) (htarget : s.Builds [] target.toTy) (hargs : target.args ≠ []) :
    ∃ types, n.args = types.map .type ∧ (∀ t ∈ types, t.isBuilt = true) ∧
      Instance s n.decl l target.toTy types := by
  have hn : s.Builds [] n.toTy :=
    ⟨h.built, h.accepted, fun v hv => by rw [h.closed] at hv; cases hv⟩
  have hclosed : target.toTy.Closed s .plain := ⟨.inr (htarget.regular .plain), htarget.closed⟩
  have hlen : n.args.length = l.params.length := by
    have hapt := (Setting.accepts_iff_apt hs.regular hs.acyclic (hn.regular .plain) h.closed).1
      h.accepted
    rw [Nominal.toTy, Ty.Apt] at hapt
    obtain ⟨_, l', hl', _, hnil | ⟨hlen, _⟩⟩ := hapt
    · -- a raw declaration is below no target with arguments
      have hbelow := h.below.below hs.regular ⟨.inr (hn.regular .plain), h.closed⟩ hclosed
        (Memory.scope {})
      rw [Nominal.toTy, Nominal.toTy, Ty.shape_nominal, Ty.shape_nominal,
        Below.nominal_cons (by simpa using hargs), hnil] at hbelow
      rw [hnil, ← paramsOf_eq hl, hbelow.2.1 rfl]
      rfl
    · rw [hl, Option.some.injEq] at hl'
      rw [hlen, hl']
  exact ⟨_, (Arg.map_types (Ty.Regular.not_wild (hn.regular .plain))).symm,
    fun t ht => Ty.isBuilt_nominal.1 h.built _ (mem_types ht),
    .of_confirms hs.regular hs.regular hl hlen hn.regular h.closed h.accepted h.below hclosed⟩

/-! ### What inferring finds -/

/-- A built target may be asked for. -/
theorem asked_target (htarget : s.Builds [] target.toTy) : s.Asked [] target.toTy :=
  .inl ⟨htarget.regular, htarget.vars⟩

/-- The problem that inferring solves for a built target is tidy. -/
theorem stands_target (hs : s.Built) (hl : s.lineageOf decl = some l)
    (htarget : s.Builds [] target.toTy) (hm : m.Faithful s) (site : Site) :
    (inferProblem s site decl l.params target.toTy).Stands s .plain l.params m :=
  stands_infer hs.regular hl (hs.names decl l hl) (.inr (htarget.regular .plain)) htarget.closed hm
    (Memory.tame_plain s m) site

/-- Without `Null` among the arguments, `Null` is put in for no parameter. -/
theorem Instance.image_ne_null {target : Ty} (h : Instance s decl l target types)
    (hnull : .null ∉ types) :
    ∀ p ∈ l.params, (Subst.zip l.params types).image (.declared p) ≠ .null := by
  intro p hp himage
  obtain ⟨t, ht, heq⟩ := image_zip_cases hp (Nat.le_of_eq h.length)
  rw [himage] at heq
  cases t with
  | null => exact hnull ht
  | _ => cases heq

/-- **Where some arguments do, and the target tells all of them, the search ends with a solution and
without a choice**, unless it runs away. -/
theorem search_told {k : Fragment} (hs : s.Regular k) (hplain : s.Plain) (hacyc : s.Acyclic)
    (hl : s.lineageOf decl = some l) (hnames : (l.params.map TypeVar.name).Nodup)
    (hasked : s.Asked [] target.toTy) (hclosed : target.toTy.Closed s k) (hargs : target.args ≠ [])
    (htells : ∀ p ∈ l.params, s.Tells (.declared p) decl (ownArgs l.params) target)
    (hm : m.Faithful s) (htame : m.Tame s k) (h : Instance s decl l target.toTy types)
    (hnull : .null ∉ types) (site : Site) :
    ∃ r m', (search s (inferProblem s site decl l.params target.toTy)).Answers m r m' ∧
      (r.1.isRunaway = true ∧ r.1.solutions = none ∨
        r.1.solutions.isSome = true ∧ r.1.ambiguous = false) := by
  refine searchWithin_pinned (Γ := Memory.scope {}) hs hplain hacyc h.filling (h.image_ne_null hnull)
    ⟨stands_infer hs hl hnames hclosed.whole hclosed.vars hm htame site,
      simple_infer hplain hl hasked site, h.met hnames hclosed.vars site _, ?_, rfl⟩
    (by rw [advancesAtMost]; omega) ?_
  · intro u hu _
    obtain ⟨p, hp, rfl⟩ := List.mem_map.1 hu
    refine .inr ⟨_, List.mem_append_right _ (List.mem_singleton_self _), ?_⟩
    refine .below (a := ⟨site, decl, ownArgs l.params⟩) hargs hclosed.vars ?_
    rw [shape_own]
    exact htells p hp
  · have hrounds : (inferProblem s site decl l.params target.toTy).rounds ≤ 3 := by
      unfold Problem.rounds
      split <;> omega
    rw [advancesAtMost]
    omega

/-- Where some arguments do, and the target shows all of them, the search ends with a solution unless it
runs away. -/
theorem search_instance (hs : s.Built) (hl : s.lineageOf decl = some l)
    (htarget : s.Builds [] target.toTy) (hargs : target.args ≠ []) {found : List Arg}
    (hshows : Shows s decl l target.decl found) (hm : m.Faithful s)
    (h : Instance s decl l target.toTy types) (hbuilt : ∀ t ∈ types, t.isBuilt = true) (site : Site) :
    ∃ r m', (search s (inferProblem s site decl l.params target.toTy)).Answers m r m' ∧
      (r.1.isRunaway = true ∧ r.1.solutions = none ∨
        r.1.solutions.isSome = true ∧ r.1.ambiguous = false) := by
  refine search_told hs.regular hs.plain hs.acyclic hl (hs.names decl l hl) (asked_target htarget)
    ⟨.inr (htarget.regular .plain), htarget.closed⟩ hargs (fun p hp cs hcs => ?_) hm
    (Memory.tame_plain s m) h (fun hnull => by cases hbuilt _ hnull) site
  obtain rfl := hcs.unique hshows.seen
  have hlen : cs.length = (target.args.map Arg.shape).length := by
    rw [← h.args_eq hs hl htarget hargs hcs, List.length_map]
  obtain ⟨t, ht, hexp⟩ := hshows.shown p hp
  obtain ⟨u, hu⟩ := exists_beside hlen (isWild_shapes (htarget.regular .plain)) ht
  exact ⟨t, u, hu, hexp⟩

/-- **What inferring finds are arguments within the bounds, with which the declaration is below the
target.** -/
theorem Concludes.inst (hs : s.Built) (htarget : s.Builds [] target.toTy) {i : Inferred}
    (hc : Concludes s target.toTy l m m' types i) : Instance s i.decl l target.toTy types := by
  have hl := hc.lineage
  have hnames := hs.names i.decl l hl
  obtain ⟨site, m₁, m₂, o, hst, hsearch, hsol, _, _⟩ := hc.found
  have hstands := stands_target hs hl htarget hst.faithful site
  have hsimple := ((searchWithin_simple hs.regular hs.plain hstands
    (simple_infer hs.plain hl (asked_target htarget) site) hsearch).2 types hsol).1
  have hholds := hc.holds hs.regular hnames ⟨.inr (htarget.regular .plain), htarget.closed⟩
    (Memory.tame_plain s m) (fun hk => by cases hk) fun _ t ht => (hsimple t ht).isPrim
  refine ⟨hholds.length, fun t ht => (hholds.closes.regular t ht).1, hholds.closes.vars,
    hholds.closes.prims, fun x hx Γ => ?_, fun Γ => ?_⟩
  · have hbound := hholds.bounds x.1 (List.of_mem_zip hx).1 Γ
    rwa [Subst.image_of_some (Subst.lookup_zip_of_mem hholds.length (keys_nodup hnames) hx)] at hbound
  · have hbelow := hholds.target Γ
    rw [Nominal.toTy, Ty.shape_nominal, hc.decl, hc.args, List.map_map] at hbelow
    rw [List.map_map]
    exact hbelow

/-- Plain types that look alike are equal one by one. -/
theorem equal_types {types types' : List Ty} (hplain : ∀ t ∈ types, t.isPlain = true)
    (h : types.map Ty.shape = types'.map Ty.shape) :
    List.Forall₂ (fun t u => t.equal u = true) types types' := by
  induction types generalizing types' with
  | nil =>
    rw [List.map_nil, eq_comm, List.map_eq_nil_iff] at h
    rw [h]
    exact .nil
  | cons t types ih =>
    cases types' with
    | nil => cases h
    | cons t' types' =>
      rw [List.map_cons, List.map_cons, List.cons.injEq] at h
      obtain ⟨hprint, hsame⟩ := Ty.alike_of_shape (hplain t List.mem_cons_self) h.1
      refine .cons ?_ (ih (fun u hu => hplain u (List.mem_cons_of_mem _ hu)) h.2)
      rw [Ty.equal, hprint, beq_self_eq_true, hsame]
      rfl

/-- Arguments are equal as their types are. -/
theorem equal_args {types types' : List Ty}
    (h : List.Forall₂ (fun t u => t.equal u = true) types types') :
    List.Forall₂ (fun a b => a.equal b = true) (types.map Arg.type) (types'.map Arg.type) := by
  rw [List.forall₂_map_left_iff, List.forall₂_map_right_iff]
  refine h.imp fun t u htu => ?_
  rwa [Arg.equal, Arg.fingerprint, Arg.fingerprint, Arg.sameShape]

/-- **Inference inverts inheritance.** Let all parameters of a declaration occur in what it looks like
seen as the declaration of the target. Then, unless the search runs away, inferring succeeds just if
some arguments make the declaration well-formed and below the target. If it succeeds, its arguments
are the only ones, which is reported, and no branch was tried. -/
theorem infer_exact (hs : s.Built) (hdecl : (s.lineageOf decl).isSome = true)
    (htarget : s.Builds [] target.toTy) (hargs : target.args ≠ []) {site : Site} {seen : Nominal}
    {m₀ : Memory} (hseen : (s.supertypeAs ⟨site, decl, ownArgs (s.paramsOf decl)⟩ target.decl).Answers
      {} (some seen) m₀)
    (hoccurs : ∀ p ∈ s.paramsOf decl, .declared p ∈ seen.toTy.vars) (hm : m.Faithful s)
    (hrun : ∀ f, ((infer s target.toTy decl).outcome m).1 = .error f → f.kind? ≠ some .runaway) :
    ((∃ i m', (infer s target.toTy decl).Answers m i m') ↔
      ∃ n : Nominal, n.decl = decl ∧ Fulfills s target.toTy n) ∧
    ∀ i m', (infer s target.toTy decl).Answers m i m' →
      i.unique = true ∧ i.effort.branches = 0 ∧ ∀ n : Nominal, n.decl = decl →
        Fulfills s target.toTy n → List.Forall₂ (fun a b => a.equal b = true) i.result.args n.args := by
  obtain ⟨l, hl⟩ := Option.isSome_iff_exists.1 hdecl
  rw [paramsOf_eq hl] at hseen hoccurs
  have hshows := Shows.of_supertypeAs hs hl (ne_object hs.regular (htarget.regular .plain) hargs)
    (Memory.faithful_empty s) hseen hoccurs
  refine ⟨⟨?_, ?_⟩, fun i m' hi => ?_⟩
  · rintro ⟨i, m', hi⟩
    obtain ⟨rfl, l', types, hc⟩ := infer_answers hm hi
    obtain rfl : l' = l := Option.some.inj (hc.lineage.symm.trans hl)
    have hinst := hc.inst hs htarget
    exact ⟨⟨.common, i.decl, types.map .type⟩, rfl, hinst.fulfills hs hl htarget
      (hinst.parts hs hl htarget hargs hshows) .common⟩
  · rintro ⟨n, rfl, hful⟩
    obtain ⟨types, _, hbuilt, hinst⟩ := hful.inst hs hl htarget hargs
    obtain ⟨site, m₁, hst, houtcome⟩ := infer_outcome hl hm target.toTy
    obtain ⟨⟨o, e⟩, m₂, hsearch, hends⟩ :=
      search_instance hs hl htarget hargs hshows hst.faithful hinst hbuilt site
    rw [houtcome, hsearch] at hrun
    have hsome : o.solutions.isSome = true := by
      rcases hends with ⟨hrunaway, hnone⟩ | ⟨hsome, _⟩
      · rw [Outcome.not_runaway_of_concluded hnone hrun] at hrunaway
        cases hrunaway
      · exact hsome
    obtain ⟨i, hi⟩ := (concluded_answers target.toTy n.decl o e m₂).2 hsome
    exact ⟨i, (concluded target.toTy n.decl (.ok (o, e), m₂)).2,
      (houtcome.trans (congrArg _ hsearch)).trans (Prod.ext hi rfl)⟩
  · obtain ⟨rfl, l', types, hc⟩ := infer_answers hm hi
    obtain rfl : l' = l := Option.some.inj (hc.lineage.symm.trans hl)
    have hinst := hc.inst hs htarget
    have hparts := hinst.parts hs hl htarget hargs hshows
    obtain ⟨site, m₁, m₂, o, hst, hsearch, hsol, hunique, _⟩ := hc.found
    have hambiguous : o.ambiguous = false := by
      obtain ⟨r, m₃, hsearch', hends⟩ := search_instance hs hl htarget hargs hshows hst.faithful hinst
        (fun t ht => (hparts t ht).1) site
      obtain ⟨rfl, _⟩ := hsearch'.unique hsearch
      rcases hends with ⟨_, hnone⟩ | ⟨_, hambiguous⟩
      · rw [hnone] at hsol
        cases hsol
      · exact hambiguous
    have hstands := stands_target hs hl htarget hst.faithful site
    have hsimple := simple_infer hs.plain hl (asked_target htarget) site
    refine ⟨by rw [hunique, hambiguous]; rfl,
      (searchWithin_simple hs.regular hs.plain hstands hsimple hsearch).1, fun n hn hful => ?_⟩
    rw [← hn] at hl hstands hsimple hsearch
    obtain ⟨types', hargs', _, hinst'⟩ := hful.inst hs hl htarget hargs
    have hshapes := searchWithin_met hs.regular hs.plain hs.acyclic hinst'.filling hstands hsimple
      (hinst'.met (hs.names n.decl l' hl) htarget.closed site (Memory.scope {})) hsearch hsol
        hambiguous
    rw [Subst.image_zip hinst'.length (keys_nodup (hs.names n.decl l' hl))] at hshapes
    rw [hc.args, hargs']
    exact equal_args (equal_types (fun t ht => (Ty.isBuilt_parts (hparts t ht).1).2.2) hshapes)

/-- `Index<K extends Comparable<K>, V extends List<K>>` below `Map<Set<V>, K>` has the arguments that
`Map<Set<List<Integer>>, Integer>` tells. -/
theorem infer_exact_index :
    let index : Definition :=
      { name := "Index"
        params := [⟨"K", "Comparable<K>"⟩, ⟨"V", "List<K>"⟩]
        parents := ["Map<Set<V>, K>"] }
    let s : Setting := { catalog := .extended [index] }
    let target : Nominal := ⟨⟨.given 0, [0]⟩, "Map", [.type (.nominal ⟨.given 0, [4]⟩ "Set"
      [.type (.nominal ⟨.given 0, [8]⟩ "List" [.type (.nominal ⟨.given 0, [13]⟩ "Integer" [])])]),
      .type (.nominal ⟨.given 0, [24]⟩ "Integer" [])]⟩
    (∃ n : Nominal, n.decl = "Index" ∧ Fulfills s target.toTy n) ∧
      ∀ i m', (infer s target.toTy "Index").Answers {} i m' → i.unique = true ∧
        i.effort.branches = 0 ∧ ∀ n : Nominal, n.decl = "Index" → Fulfills s target.toTy n →
          List.Forall₂ (fun a b => a.equal b = true) i.result.args n.args := by
  intro index s target
  have hgrown : s.catalog.Grown := Catalog.grown_extended _
  obtain ⟨haccepted, hbuilt, hvars, horder, hdecl, htargetAccepted, hseen, hunique⟩ :
      (∀ t ∈ s.catalog.declaredTypes, s.acceptsWithin 20 t = true ∧ t.sparing = true) ∧
        (∀ t ∈ s.catalog.declaredTypes, t.isBuilt = true) ∧
        (∀ d ∈ s.catalog.decls, (d.vars.map TypeVar.name).Nodup ∧
          ∀ v ∈ d.vars, s.catalog.selfBounded v = false) ∧
        (∀ d ∈ s.catalog.decls, d.name ≠ objectName →
          ∀ parent ∈ objectName :: d.parents.map Nominal.decl,
            s.catalog.position parent < s.catalog.position d.name) ∧
        (s.lineageOf "Index").isSome = true ∧ s.acceptsWithin 20 target.toTy = true ∧
        ((s.supertypeAs ⟨.common, "Index", ownArgs (s.paramsOf "Index")⟩ "Map").outcome {}).1.map
          (fun seen => seen.any fun n =>
            (s.paramsOf "Index").all fun p => n.toTy.vars.contains (.declared p)) = .ok true ∧
        ((infer s target.toTy "Index").outcome {}).1.map Inferred.unique = .ok true := by
    decide +kernel
  have hs : s.Built := .of_vetted (.of_within hgrown haccepted (by decide)) (hgrown.acyclic horder)
    hbuilt hvars
  have htarget : s.Builds [] target.toTy :=
    ⟨rfl, .of_within htargetAccepted, fun v hv => by cases hv⟩
  obtain ⟨seen, m₀, hseen, hoccurs⟩ := exists_answers hseen
  obtain ⟨n, rfl, hoccurs⟩ := (Option.any_eq_true _ _).1 hoccurs
  obtain ⟨i, m', hi, _⟩ := exists_answers hunique
  have hexact := infer_exact hs hdecl htarget (by decide) hseen
    (by simpa using hoccurs) (Memory.faithful_empty s) fun f hf => by rw [hi] at hf; cases hf
  exact ⟨hexact.1.1 ⟨i, m', hi⟩, hexact.2⟩

end Inference

end Generics
