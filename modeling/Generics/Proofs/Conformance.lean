/-
# Arguments within bounds

`Ty.AptUnder s ps σ t` says of a type over the variables `ps` that the arguments of every declaration applied
in it are beneath the bounds of the parameters once `σ` is put in for the variables.

- What passes the check is apt with the variables as they are (`AptUnder.of_check`), and it stays so when
  types beneath their bounds are put in for the variables (`AptUnder.fill`), as what is beneath stays so.
- It is handed on to supertypes (`AptUnder.way`), and apt types may be put in for variables
  (`AptUnder.rebuild`).
- Without variables it passes the check (`AptUnder.passes`).
-/

import Generics.Proofs.Instantiation

namespace Generics

open Query Setting Inference

variable {s : Setting} {ps qs params : List TypeVar} {σ τ g : Var → Ty} {t : Ty} {types : List Ty}

/-! ### Applied types with types put in -/

/-- Types put in for variables may be rebuilt before they are put in. -/
theorem Ty.Applied.rebuild_rebuild (h : t.Applied s ps)
    (hput : ∀ p ∈ ps, (g (.declared p)).rebuild σ = τ (.declared p)) :
    (t.rebuild g).rebuild σ = t.rebuild τ := by
  rw [Ty.rebuild_rebuild]
  refine Ty.rebuild_congr fun v hv => ?_
  obtain ⟨p, hp, rfl⟩ := h.vars v hv
  exact hput p hp

/-- The bound of a parameter with applied types in the place of the parameters is applied. -/
theorem Setting.Bounded.instance (hparams : s.Bounded params) (hlen : params.length ≤ types.length)
    (htypes : ∀ t ∈ types, t.Applied s ps) {p : TypeVar} (hp : p ∈ params) :
    ((s.catalog.upper p).rebuild (Subst.zip params types).image).Applied s ps := by
  refine (hparams.applied p hp).rebuild fun q hq => ?_
  obtain ⟨t, ht, himage⟩ := image_zip_cases hq hlen
  exact himage ▸ (htypes t ht).shape

/-! ### Arguments within bounds -/

/-- With `σ` put in, the types are beneath the bounds of the parameters they are given to. -/
def Setting.Conforms (s : Setting) (σ : Var → Ty) (params : List TypeVar) (types : List Ty) : Prop :=
  ∀ x ∈ params.zip types, s.Beneath (x.2.rebuild σ)
    (((s.catalog.upper x.1).rebuild (Subst.zip params types).image).rebuild σ)

namespace Setting.Conforms

/-- Whether types conform is a matter of their shapes. -/
theorem shape_iff : s.Conforms σ params (types.map Ty.shape) ↔ s.Conforms σ params types := by
  simp only [Conforms, image_zip_shape, List.zip_map_right, List.mem_map, forall_exists_index, and_imp,
    forall_apply_eq_imp_iff₂, Prod.map, id, Ty.rebuild_shape]

/-- Types that are put in for variables may be put in before or after. -/
theorem rebuild (hparams : s.Bounded params) (hlen : params.length ≤ types.length)
    (htypes : ∀ t ∈ types, t.Applied s ps) (hg : Siteless g)
    (hput : ∀ p ∈ ps, (g (.declared p)).rebuild σ = τ (.declared p)) (h : s.Conforms τ params types) :
    s.Conforms σ params (types.map (Ty.rebuild g)) := by
  intro x hx
  rw [List.zip_map_right, List.mem_map] at hx
  obtain ⟨⟨p, t⟩, hx, rfl⟩ := hx
  obtain ⟨hp, ht⟩ := List.of_mem_zip hx
  have hbound := h _ hx
  rw [← (htypes t ht).rebuild_rebuild hput, ← (hparams.instance hlen htypes hp).rebuild_rebuild hput,
    Ty.rebuild_zip hlen hg fun v hv => ?_] at hbound
  · exact hbound
  · obtain ⟨q, hq, rfl⟩ := (hparams.applied p hp).vars v hv
    exact ⟨q, hq, rfl⟩

/-- What is put in for variables is no matter where there are none. -/
theorem of_closed (hparams : s.Bounded params) (hlen : params.length ≤ types.length)
    (htypes : ∀ t ∈ types, t.Applied s []) (h : s.Conforms σ params types) :
    s.Conforms τ params types := by
  have hsame : ∀ {t : Ty}, t.Applied s [] → t.rebuild σ = t.rebuild τ := fun ht =>
    Ty.rebuild_congr fun v hv => by rw [ht.closed] at hv; cases hv
  rintro ⟨p, t⟩ hx
  obtain ⟨hp, ht⟩ := List.of_mem_zip hx
  have hbound := h _ hx
  rwa [hsame (htypes t ht), hsame (hparams.instance hlen htypes hp)] at hbound

/-- What the parameters stand for is beneath their bounds. -/
theorem beneath (hparams : s.Bounded params) (hlen : params.length ≤ types.length)
    (h : s.Conforms σ params types) {p : TypeVar} (hp : p ∈ params) :
    s.Beneath (((Subst.zip params types).image (.declared p)).rebuild σ)
      (((s.catalog.upper p).rebuild (Subst.zip params types).image).rebuild σ) := by
  obtain ⟨t, ht⟩ := Option.isSome_iff_exists.1 (Subst.lookup_zip_isSome hlen hp)
  obtain ⟨q, hmem, hkey⟩ := Subst.mem_zip_of_lookup ht
  obtain rfl := List.inj_on_of_nodup_map hparams.keys (List.of_mem_zip hmem).1 hp hkey
  rw [Subst.image_of_some ht, Ty.rebuild_shape]
  exact h _ hmem

/-- **Types within bounds stay so when variables are given types beneath their bounds.** -/
theorem fill (hs : s.Hierarchy) (hps : s.Bounded ps) (htypes : ∀ t ∈ types, t.Applied s ps)
    (hσ : Siteless σ) (happ : ∀ p ∈ ps, (σ (.declared p)).Applied s [])
    (hbound : ∀ p ∈ ps, s.Beneath (σ (.declared p)) ((s.catalog.upper p).rebuild σ))
    (h : s.Conforms .var params types) : s.Conforms σ params types := by
  intro x hx
  have hbeneath := (h x hx).rebuild hs hps hσ happ hbound (htypes _ (List.of_mem_zip hx).2).shape
  rwa [Ty.rebuild_rebuild, Ty.rebuild_rebuild] at hbeneath

end Setting.Conforms

/-- The parameters of a declaration are within their bounds. -/
theorem Setting.Bounded.conforms (hparams : s.Bounded params) :
    s.Conforms .var params (params.map fun p => .var (.declared p)) := by
  have hlen : params.length = (params.map fun p => Ty.var (.declared p)).length :=
    (List.length_map _).symm
  have hall := Subst.image_zip hlen hparams.keys
  rw [List.map_map] at hall
  have himage := List.map_inj_left.1 hall
  rintro ⟨p, t⟩ hx
  have hp := (List.of_mem_zip hx).1
  have ht := Subst.image_of_some (Subst.lookup_zip_of_mem hlen hparams.keys hx)
  rw [himage p hp] at ht
  have hbound : ((s.catalog.upper p).rebuild (Subst.zip params
      (params.map fun p => .var (.declared p))).image).rebuild .var = (s.catalog.upper p).shape := by
    refine Ty.Applied.rebuild_rebuild (hparams.applied p hp) fun q hq => ?_
    rw [himage q hq]
    rfl
  dsimp only
  rw [hbound, show t.rebuild .var = _ from ht.symm]
  exact .bound (.self (hparams.applied p hp))

/-- The type is built from declarations with exactly as many type arguments as they have parameters, and
from the given variables, and with `σ` put in for these the arguments are within their bounds. -/
inductive Ty.AptUnder (s : Setting) (ps : List TypeVar) (σ : Var → Ty) : Ty → Prop
  | nominal {site : Site} {decl : String} {args : List Arg} {l : Lineage} :
    s.lineageOf decl = some l → args.length = l.params.length → (∀ a ∈ args, a.isWild = false) →
      (∀ t, Arg.type t ∈ args → Ty.AptUnder s ps σ t) →
        s.Conforms σ l.params (args.filterMap Arg.type?) → Ty.AptUnder s ps σ (.nominal site decl args)
  | var {p : TypeVar} : p ∈ ps → Ty.AptUnder s ps σ (.var (.declared p))

namespace Ty.AptUnder

/-- An apt type is applied. -/
theorem applied (h : t.AptUnder s ps σ) : t.Applied s ps := by
  induction h with
  | nominal hl hlen hwild _ _ ih => exact .nominal hl hlen hwild ih
  | var hp => exact .var hp

/-- A type is apt if its shape is. -/
theorem of_shape (h : t.shape.AptUnder s ps σ) : t.AptUnder s ps σ := by
  generalize hx : t.shape = x at h
  induction h generalizing t with
  | nominal hl hlen hwild _ hconf ih =>
    obtain ⟨n, rfl, rfl, rfl⟩ := Ty.of_shape_nominal hx
    rw [types_shape, Conforms.shape_iff] at hconf
    refine .nominal hl (by rwa [List.length_map] at hlen) (fun a ha => ?_) (fun u hu => ?_) hconf
    · rw [← isWild_rebuild .var a]
      exact hwild _ (List.mem_map_of_mem ha)
    · exact ih u.shape (List.mem_map.2 ⟨.type u, hu, rfl⟩) rfl
  | var hp =>
    cases t with
    | var v =>
      cases hx
      exact .var hp
    | _ => cases hx

/-- **An apt type stays apt when its variables are given types beneath their bounds.** -/
theorem fill (hs : s.Hierarchy) (hps : s.Bounded ps) (hσ : Siteless σ)
    (happ : ∀ p ∈ ps, (σ (.declared p)).Applied s [])
    (hbound : ∀ p ∈ ps, s.Beneath (σ (.declared p)) ((s.catalog.upper p).rebuild σ))
    (h : t.AptUnder s ps .var) : t.AptUnder s ps σ := by
  induction h with
  | nominal hl hlen hwild htypes hconf ih =>
    exact .nominal hl hlen hwild ih
      (hconf.fill hs hps (fun t ht => (htypes t (mem_types ht)).applied) hσ happ hbound)
  | var hp => exact .var hp

/-- A declaration applied to its own parameters is apt. -/
theorem own {decl : String} {l : Lineage} (hl : s.lineageOf decl = some l) (hparams : s.Bounded l.params) :
    (Ty.nominal .common decl (ownArgs l.params)).AptUnder s l.params .var := by
  have hargs : ownArgs l.params = (l.params.map fun p => .var (.declared p)).map .type := by
    rw [ownArgs, List.map_map]
    rfl
  refine .nominal hl (List.length_map _) (fits_own hl).2 (fun t ht => ?_) ?_
  · obtain ⟨p, hp, heq⟩ := List.mem_map.1 ht
    injection heq with heq
    exact heq ▸ .var hp
  · rw [hargs, Instance.types_map]
    exact hparams.conforms

section Bounds

variable (hbounds : ∀ decl l, s.lineageOf decl = some l → s.Bounded l.params)
include hbounds

/-- **Apt types may be put in for the variables of an apt type.** -/
theorem rebuild (hg : Siteless g) (hput : ∀ p ∈ ps, (g (.declared p)).AptUnder s qs σ ∧
    (g (.declared p)).rebuild σ = τ (.declared p)) (h : t.AptUnder s ps τ) :
    (t.rebuild g).AptUnder s qs σ := by
  induction h with
  | @nominal site decl args l hl hlen hwild htypes hconf ih =>
    rw [Ty.rebuild_nominal]
    refine .nominal hl (by rwa [List.length_map]) (fun a ha => ?_) (fun u hu => ?_) ?_
    · obtain ⟨b, hb, rfl⟩ := List.mem_map.1 ha
      rw [isWild_rebuild]
      exact hwild b hb
    · obtain ⟨b, hb, hbu⟩ := List.mem_map.1 hu
      cases b with
      | type t =>
        injection hbu with hbu
        exact hbu ▸ ih t hb
      | wild u l => cases hbu
    · rw [type?_map_rebuild]
      exact hconf.rebuild (hbounds decl l hl) (Nat.le_of_eq ((length_types hwild).trans hlen).symm)
        (fun t ht => (htypes t (mem_types ht)).applied) hg fun p hp => (hput p hp).2
  | var hp => exact (hput _ hp).1

/-- Whether a type is apt is a matter of its shape. -/
theorem shape_iff : t.shape.AptUnder s ps σ ↔ t.AptUnder s ps σ :=
  ⟨of_shape, fun h => h.rebuild hbounds (fun _ => rfl) fun _ hp => ⟨.var hp, rfl⟩⟩

/-- An apt type without variables is apt whatever is put in for variables. -/
theorem of_closed (h : t.AptUnder s ps σ) (hvars : t.vars = []) : t.AptUnder s qs τ := by
  induction h with
  | @nominal site decl args l hl hlen hwild htypes hconf ih =>
    have hclosed : ∀ t, Arg.type t ∈ args → t.vars = [] := fun t ht =>
      vars_of_parts hvars ht List.mem_cons_self
    refine .nominal hl hlen hwild (fun t ht => ih t ht (hclosed t ht)) ?_
    exact hconf.of_closed (hbounds decl l hl) (Nat.le_of_eq ((length_types hwild).trans hlen).symm)
      fun t ht => (htypes t (mem_types ht)).applied.of_closed (hclosed t (mem_types ht))
  | var _ => cases hvars

/-- **What is handed on to a direct supertype makes it apt.** -/
theorem inherited (hs : s.Hierarchy) (hparents : ∀ decl l, s.lineageOf decl = some l → ∀ n ∈ l.parents,
      n.toTy.AptUnder s l.params .var) (hσ : Siteless σ)
    (happ : ∀ p ∈ ps, (σ (.declared p)).Applied s []) {decl : String} {l : Lineage} {parent : Nominal}
    {site : Site} {args : List Arg} (hl : s.lineageOf decl = some l) (hmem : parent ∈ l.parents)
    (h : (Ty.nominal site decl args).AptUnder s ps σ) :
    (Ty.nominal .common parent.decl (s.inherited decl args parent)).AptUnder s ps σ := by
  cases h with
  | nominal hl' hlen hwild htypes hconf =>
    rw [hl] at hl'
    injection hl' with hl'
    subst hl'
    rw [Hierarchy.inherited_eq_rebuild hl hlen]
    have hle : l.params.length ≤ (args.filterMap Arg.type?).length := by
      rw [length_types hwild, hlen]
    have himage : ∀ p ∈ l.params,
        ((Subst.zip l.params (args.filterMap Arg.type?)).image (.declared p)).AptUnder s ps σ := by
      intro p hp
      obtain ⟨t, ht, heq⟩ := image_zip_cases hp hle
      exact heq ▸ (shape_iff hbounds).2 (htypes t (mem_types ht))
    -- The parameters of the declaration come to its arguments with `σ` put in.
    let whole : Var → Ty := fun v => ((Subst.zip l.params (args.filterMap Arg.type?)).image v).rebuild σ
    have hparent : parent.toTy.AptUnder s l.params whole := by
      refine (hparents decl l hl parent hmem).fill hs (hbounds decl l hl)
        (fun v => Ty.shape_rebuild hσ _) (fun p hp => (himage p hp).applied.rebuild happ) fun p hp => ?_
      have hbound := hconf.beneath (hbounds decl l hl) hle hp
      rwa [Ty.rebuild_rebuild] at hbound
    exact hparent.rebuild hbounds (Subst.siteless_image _) fun p hp => ⟨himage p hp, rfl⟩

/-- **What is apt is apt seen as any of its ancestors.** -/
theorem way (hs : s.Hierarchy) (hparents : ∀ decl l, s.lineageOf decl = some l → ∀ n ∈ l.parents,
      n.toTy.AptUnder s l.params .var) (hσ : Siteless σ)
    (happ : ∀ p ∈ ps, (σ (.declared p)).Applied s []) {ancestor decl : String} {args found : List Arg}
    {site : Site} (hway : s.Way ancestor decl args found)
    (h : (Ty.nominal site decl args).AptUnder s ps σ) :
    (Ty.nominal .common ancestor found).AptUnder s ps σ := by
  induction hway generalizing site with
  | here =>
    rw [← shape_iff hbounds, Ty.shape_nominal] at h ⊢
    exact h
  | up hl hmem _ ih => exact ih (h.inherited hbounds hs hparents hσ happ hl hmem)

end Bounds

end Ty.AptUnder

/-! ### What passes the check -/

section Check

variable {m m' : Memory} {depth : Nat}

/-- Where all arguments are checked, each one is. -/
theorem Arg.check_of_checkAll {n : Nominal} {as : List Arg} (hm : m.Faithful s)
    (h : (Arg.checkAll (s.withDepth depth) n as).Answers m () m') {a : Arg} (ha : a ∈ as) :
    ∃ m₁ m₂, m₁.Faithful s ∧ (a.check (s.withDepth depth) n).Answers m₁ () m₂ := by
  induction as generalizing m with
  | nil => cases ha
  | cons b as ih =>
    rw [Arg.checkAll] at h
    obtain ⟨_, m₁, hb, h⟩ := answers_bind.1 h
    rcases List.mem_cons.1 ha with rfl | ha
    · exact ⟨m, m₁, hm, hb⟩
    · exact ih ((Arg.check_keepsFaith (s := s.withDepth depth) n b).answers hm hb) h ha

/-- Arguments that pass are within their bounds. -/
theorem Setting.Conforms.of_checkBounds (hs : s.Hierarchy) (hps : s.Bounded ps) (hparams : s.Bounded params)
    (hlen : params.length ≤ types.length) (htypes : ∀ t ∈ types, t.Applied s ps) {n : Nominal}
    (hm : m.Faithful s) (h : ((s.withDepth depth).checkBounds n (Subst.zip params types) params
      (types.map .type) (types.map .type)).Answers m () m') : s.Conforms .var params types := by
  rintro ⟨p, t⟩ hx
  obtain ⟨hp, ht⟩ := List.of_mem_zip hx
  obtain ⟨b, m₁, m₂, hrep, hm₁, hr⟩ := checkBounds_answers hm h _ hx
  have hb : b.shape.Applied s ps := hrep.shape ▸ hparams.instance hlen htypes hp
  have hbeneath := (belowWithin_decides_beneath hs hps depth (htypes t ht) hb.of_shape
    (.nil s ps t) m₁ true m₂ hm₁ hr).2.1 rfl
  have hbound := Ty.shape_rebuild (Subst.siteless_image (Subst.zip params types)) (s.catalog.upper p)
  rw [hrep.shape, ← hbound] at hbeneath
  exact hbeneath

/-- **An applied type that passes the check is apt**, with the variables as they are. -/
theorem Ty.AptUnder.of_check (hs : s.Hierarchy) (hbounds : ∀ decl l, s.lineageOf decl = some l →
      s.Bounded l.params) (hps : s.Bounded ps) (happ : t.Applied s ps) (hm : m.Faithful s)
    (h : (t.check (s.withDepth depth)).Answers m () m') : t.AptUnder s ps .var := by
  induction happ generalizing m m' with
  | @nominal site decl args l hl hlen hwild htypes ih =>
    rw [Ty.check] at h
    obtain ⟨params, m₁, hparams, h⟩ := answers_bind.1 h
    have hm₁ := (checkedParams_keepsFaith (s := s.withDepth depth) _).answers hm hparams
    split at h
    · next hargs =>
      rw [List.isEmpty_iff] at hargs
      subst hargs
      refine .nominal hl hlen hwild (fun t ht => absurd ht List.not_mem_nil) fun x hx => ?_
      rw [List.length_eq_zero_iff.1 hlen.symm] at hx
      cases hx
    · split at h
      · exact absurd h answers_throw
      obtain ⟨_, m₂, hall, h⟩ := answers_bind.1 h
      have hm₂ := (Arg.checkAll_keepsFaith (s := s.withDepth depth) _ args).answers hm₁ hall
      refine .nominal hl hlen hwild (fun t ht => ?_) ?_
      · obtain ⟨m₃, m₄, hm₃, hcheck⟩ := Arg.check_of_checkAll hm₁ hall ht
        rw [Arg.check_type _ _ (Arg.not_prim_of_check hcheck)] at hcheck
        exact ih t ht hm₃ hcheck
      · obtain ⟨l', hknown, rfl⟩ := checkedParams_answers (s := s.withDepth depth) hm hparams
        have hl' : s.lineageOf decl = some l' := hknown
        rw [hl', Option.some.injEq] at hl
        subst hl
        rw [checkFit_eq hwild] at h
        obtain ⟨σ, m₃, hσ, h⟩ := answers_bind.1 h
        obtain ⟨rfl, hst⟩ := assignment_answers (s := s) hl' hm₂ hσ
        rw [paramsOf_eq hl'] at h
        exact .of_checkBounds (n := ⟨site, decl, args⟩) hs hps (hbounds decl _ hl')
          (Nat.le_of_eq ((length_types hwild).trans hlen).symm) (fun t ht => htypes t (mem_types ht))
          hst.faithful (by rw [Arg.map_types hwild]; exact h)
  | var hp => exact .var hp

end Check

/-- Over a hierarchy with applied bounds, questions are plain. -/
theorem Setting.Hierarchy.plain (hs : s.Hierarchy)
    (hbounds : ∀ decl l, s.lineageOf decl = some l → s.Bounded l.params) : s.Plain where
  regular :=
    { object := hs.object
      parents := hs.parentsRegular
      bounds := fun decl l hl p hp =>
        ⟨((hbounds decl l hl).applied p hp).regular, ((hbounds decl l hl).applied p hp).vars⟩
      arrays := nofun
      ranked := nofun
      resolved := nofun }
  parents k decl l hl n hn := (hs.parents decl l hl n hn).regular_in k
  bounds k decl l hl p hp := ((hbounds decl l hl).applied p hp).regular_in k

/-- For applied types without variables, derivations are ways up. -/
theorem Setting.Hierarchy.beneath_iff_below (hs : s.Hierarchy) (hregular : s.Regular .plain) {a b : Ty}
    (ha : a.Applied s []) (hb : b.Applied s []) :
    s.Beneath a.shape b.shape ↔ ∀ Γ, Below s Γ a.shape b.shape := by
  rw [← affirms_iff hs ha hb]
  constructor
  · rintro ⟨_, depth, hyes⟩
    obtain ⟨m', hr⟩ := hyes depth (Nat.le_refl _) {} (Memory.faithful_empty s)
    have hconfirms : s.Confirms a b := ⟨depth, m', hr⟩
    exact hconfirms.below hregular ⟨.inr ha.regular, ha.closed⟩ ⟨.inr hb.regular, hb.closed⟩
  · exact affirms_below hregular hs.acyclic ha.regular hb.regular ha.closed hb.closed

/-- **An apt type without variables passes the check**, whatever was asked before. -/
theorem Ty.AptUnder.passes (hgrown : s.catalog.Grown) (hs : s.Hierarchy)
    (hbounds : ∀ decl l, s.lineageOf decl = some l → s.Bounded l.params) (h : t.AptUnder s [] σ) :
    s.Passes fun s => t.check s := by
  have hregular := (hs.plain hbounds).regular
  refine Ty.Apt.passes hregular hs.acyclic ?_ h.applied.regular h.applied.closed
  induction h with
  | @nominal site decl args l hl hlen hwild htypes hconf ih =>
    rw [Ty.Apt, Arg.aptAll_iff]
    refine ⟨fun a ha => ?_, l, hl, ?_, .inr ⟨hlen, ?_⟩⟩
    · cases a with
      | type t =>
        rw [Arg.Apt]
        exact ⟨((htypes t ha).applied.regular_in .full).not_prim, ih t ha⟩
      | wild u l => cases hwild _ ha
    · obtain ⟨d, hd, -, hfind, hparams, -⟩ := hgrown.of_lineage hl
      refine List.find?_eq_none.2 fun p hp => ?_
      rw [(hgrown.orderly.decls d hd).not_selfBounded hfind (hparams ▸ hp)]
      exact Bool.false_ne_true
    · have hle : l.params.length ≤ (args.filterMap Arg.type?).length := by
        rw [length_types hwild, hlen]
      have happ : ∀ t ∈ args.filterMap Arg.type?, t.Applied s [] := fun t ht =>
        (htypes t (mem_types ht)).applied
      rintro ⟨p, t⟩ hx
      obtain ⟨hp, ht⟩ := List.of_mem_zip hx
      have hbound := (hbounds decl l hl).instance hle happ hp
      have hsite := Ty.shape_rebuild (Subst.siteless_image (Subst.zip l.params
        (args.filterMap Arg.type?))) (s.catalog.upper p)
      rw [← hsite]
      exact (hs.beneath_iff_below hregular (happ t ht) hbound).1
        (hconf.of_closed (hbounds decl l hl) hle happ _ hx)
  | var hp => cases hp

end Generics
