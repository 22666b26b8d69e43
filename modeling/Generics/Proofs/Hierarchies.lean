/-
# Ways up a hierarchy

A type is *applied* if it is built only from declarations with exactly as many type arguments as
they have parameters, and from some given variables (`Ty.Applied`). Applied types have no wildcards,
and where the supertypes of all declarations are applied, what an applied type looks like seen as an
ancestor is applied again.

`Setting.Way` is every way up to an ancestor, not only the one that goes through the first supertype
that leads there (`Setting.SeenAs`). Ways can be put one after the other (`Way.trans`) and commute
with rebuilding in both directions (`Way.rebuild`, `Way.of_rebuild`). In a `Setting.Hierarchy` all
ways from a declaration, applied to its own parameters, to one ancestor come to equal types there;
then they do so for any arguments (`Hierarchy.way_unique`), and the one way that is followed comes to
what every other way comes to.
-/

import Generics.Proofs.Exactness

namespace Generics

open Query Setting Inference

/-! ### Applied types -/

/-- The type is built from declarations with exactly as many type arguments as they have parameters,
and from the given variables. -/
inductive Ty.Applied (s : Setting) (ps : List TypeVar) : Ty → Prop
  | nominal {site : Site} {decl : String} {args : List Arg} {l : Lineage} :
    s.lineageOf decl = some l → args.length = l.params.length → (∀ a ∈ args, a.isWild = false) →
      (∀ t, Arg.type t ∈ args → Ty.Applied s ps t) → Ty.Applied s ps (.nominal site decl args)
  | var {p : TypeVar} : p ∈ ps → Ty.Applied s ps (.var (.declared p))

mutual
/-- Whether a type is applied. -/
def Ty.isApplied (s : Setting) (ps : List TypeVar) : Ty → Bool
  | .nominal _ decl args =>
    ((s.lineageOf decl).any fun l => args.length == l.params.length) && Arg.allApplied s ps args
  | .var (.declared p) => ps.contains p
  | _ => false

/-- Whether the arguments are applied types. -/
def Arg.allApplied (s : Setting) (ps : List TypeVar) : List Arg → Bool
  | [] => true
  | .type t :: as => t.isApplied s ps && Arg.allApplied s ps as
  | .wild _ _ :: _ => false
end

mutual
/-- A type that is found to be applied is. -/
theorem Ty.Applied.of_isApplied {s : Setting} {ps : List TypeVar} :
    ∀ {t : Ty}, t.isApplied s ps = true → t.Applied s ps
  | .nominal _ decl args, h => by
    rw [Ty.isApplied, Bool.and_eq_true, Option.any_eq_true] at h
    obtain ⟨⟨l, hl, hlen⟩, hargs⟩ := h
    obtain ⟨hwild, htypes⟩ := Arg.applied_of_allApplied hargs
    exact .nominal hl (beq_iff_eq.1 hlen) hwild htypes
  | .var (.declared p), h => .var (List.contains_iff_mem.1 h)

/-- Arguments that are found to be applied are types, each of them applied. -/
theorem Arg.applied_of_allApplied {s : Setting} {ps : List TypeVar} :
    ∀ {as : List Arg}, Arg.allApplied s ps as = true →
      (∀ a ∈ as, a.isWild = false) ∧ ∀ t, Arg.type t ∈ as → t.Applied s ps
  | [], _ => by simp
  | .type t :: as, h => by
    rw [Arg.allApplied, Bool.and_eq_true] at h
    obtain ⟨hwild, htypes⟩ := Arg.applied_of_allApplied h.2
    refine ⟨List.forall_mem_cons.2 ⟨rfl, hwild⟩, fun u hu => ?_⟩
    rcases List.mem_cons.1 hu with hu | hu
    · injection hu with hu
      exact hu ▸ Ty.Applied.of_isApplied h.1
    · exact htypes u hu
end

namespace Ty.Applied

variable {s : Setting} {ps qs : List TypeVar} {t : Ty}

/-- An argument of an applied declaration is an applied type. -/
theorem arg {site : Site} {decl : String} {args : List Arg}
    (h : (Ty.nominal site decl args).Applied s ps) {a : Arg} (ha : a ∈ args) :
    ∃ t, a = .type t ∧ t.Applied s ps := by
  cases h with
  | nominal _ _ hwild htypes =>
    cases a with
    | type t => exact ⟨t, rfl, htypes t ha⟩
    | wild u l => cases hwild _ ha

/-- An applied type mentions the given variables only. -/
theorem vars (h : t.Applied s ps) : ∀ v ∈ t.vars, ∃ p ∈ ps, v = .declared p := by
  induction h with
  | nominal _ _ hwild _ ih =>
    intro v hv
    rw [Ty.vars, Arg.mem_varsAll] at hv
    obtain ⟨a, ha, hv⟩ := hv
    cases a with
    | type t => exact ih t ha v hv
    | wild u l => cases hwild _ ha
  | @var p hp => exact fun v hv => ⟨p, hp, List.mem_singleton.1 hv⟩

/-- A type that is applied over no variables is closed. -/
theorem closed (h : t.Applied s []) : t.vars = [] :=
  List.eq_nil_iff_forall_not_mem.2 fun v hv => by
    obtain ⟨p, hp, _⟩ := h.vars v hv
    cases hp

/-- Applied types are in both fragments. -/
theorem regular_in (h : t.Applied s ps) (k : Fragment) : t.Regular s k := by
  induction h with
  | nominal hl hlen hwild _ ih =>
    rw [Ty.Regular, Arg.regularAll_iff]
    refine ⟨⟨_, hl, .inr hlen⟩, fun a ha => ?_⟩
    cases a with
    | type t => exact ih t ha
    | wild u l => cases hwild _ ha
  | var => rw [Ty.Regular]; trivial

/-- Applied types are plain. -/
theorem regular (h : t.Applied s ps) : t.Regular s .plain := h.regular_in .plain

/-- A type that is applied over some variables is so over more. -/
theorem mono (h : t.Applied s ps) (hsub : ∀ p ∈ ps, p ∈ qs) : t.Applied s qs := by
  induction h with
  | nominal hl hlen hwild _ ih => exact .nominal hl hlen hwild ih
  | var hp => exact .var (hsub _ hp)

/-- An applied type without variables is applied over any variables. -/
theorem of_closed (h : t.Applied s ps) (hvars : t.vars = []) : t.Applied s qs := by
  induction h with
  | nominal hl hlen hwild _ ih =>
    exact .nominal hl hlen hwild fun t ht => ih t ht (vars_of_parts hvars ht List.mem_cons_self)
  | var _ => cases hvars

/-- Applied types are built from declarations. -/
theorem isBuilt (h : t.Applied s ps) : t.isBuilt = true := by
  induction h with
  | nominal _ _ hwild _ ih =>
    refine Ty.isBuilt_nominal.2 fun a ha => ?_
    cases a with
    | type t => exact ih t ha
    | wild u l => cases hwild _ ha
  | var => rfl

/-- **Applied types in the place of the variables keep a type applied.** -/
theorem rebuild (h : t.Applied s ps) {f : Var → Ty}
    (hf : ∀ p ∈ ps, (f (.declared p)).Applied s qs) : (t.rebuild f).Applied s qs := by
  induction h with
  | nominal hl hlen hwild _ ih =>
    rw [Ty.rebuild_nominal]
    refine .nominal hl (by rwa [List.length_map]) (fun a ha => ?_) fun u hu => ?_
    · obtain ⟨b, hb, rfl⟩ := List.mem_map.1 ha
      rw [isWild_rebuild]
      exact hwild b hb
    · obtain ⟨b, hb, hbu⟩ := List.mem_map.1 hu
      cases b with
      | type t =>
        injection hbu with hbu
        exact hbu ▸ ih t hb
      | wild u l => cases hbu
  | @var p hp => exact hf p hp

/-- The shape of an applied type is applied. -/
theorem shape (h : t.Applied s ps) : t.shape.Applied s ps := h.rebuild fun _ hp => .var hp

/-- A type is applied if its shape is. -/
theorem of_shape (h : t.shape.Applied s ps) : t.Applied s ps := by
  generalize hx : t.shape = x at h
  induction h generalizing t with
  | nominal hl hlen hwild _ ih =>
    obtain ⟨n, rfl, rfl, rfl⟩ := Ty.of_shape_nominal hx
    refine .nominal hl (by rwa [List.length_map] at hlen) (fun a ha => ?_) fun u hu => ?_
    · rw [← isWild_rebuild .var a]
      exact hwild _ (List.mem_map_of_mem ha)
    · exact ih u.shape (List.mem_map.2 ⟨.type u, hu, rfl⟩) rfl
  | var hp =>
    cases t with
    | var v =>
      cases hx
      exact .var hp
    | _ => cases hx

/-- Applied types of one shape are equal. -/
theorem equal_of_shape (h : t.Applied s ps) {u : Ty} (hu : t.shape = u.shape) : t.equal u = true := by
  obtain ⟨hprint, hsame⟩ := Ty.alike_of_shape (Ty.isBuilt_parts h.isBuilt).2.2 hu
  rw [Ty.equal, hprint, hsame, beq_self_eq_true]
  rfl

/-- Equal types over variables that keys tell apart have one shape. -/
theorem shape_of_equal (h : t.Applied s ps) {u : Ty} (hu : u.Applied s ps)
    (hkeys : (ps.map TypeVar.key).Nodup) (heq : t.equal u = true) : t.shape = u.shape := by
  rw [Ty.equal, Bool.and_eq_true] at heq
  refine Ty.shape_eq_of_sameShape heq.2 fun v hv w hw hkey => ?_
  obtain ⟨p, hp, rfl⟩ := h.vars v hv
  obtain ⟨q, hq, rfl⟩ := hu.vars w hw
  rw [List.inj_on_of_nodup_map hkeys hp hq hkey]

end Ty.Applied

/-! ### Ways up -/

namespace Setting

/-- A way up from a declaration applied to arguments to an ancestor, where it comes to the arguments
found. -/
inductive Way (s : Setting) (ancestor : String) : String → List Arg → List Arg → Prop
  | here (args : List Arg) : Way s ancestor ancestor args args
  | up {decl : String} {args found : List Arg} {parent : Nominal} {l : Lineage} :
    s.lineageOf decl = some l → parent ∈ l.parents →
      Way s ancestor parent.decl (s.inherited decl args parent) found → Way s ancestor decl args found

variable {s : Setting} {k : Fragment} {ancestor decl : String} {args found : List Arg}

namespace Way

/-- A way to an ancestor and one from there make one way. -/
theorem trans {top : String} {more : List Arg} (h : s.Way ancestor decl args found)
    (h' : s.Way top ancestor found more) : s.Way top decl args more := by
  induction h with
  | here => exact h'
  | up hl hmem _ ih => exact .up hl hmem (ih h')

/-- Ways lead up by direct supertypes. -/
theorem reaches (h : s.Way ancestor decl args found) : Relation.ReflTransGen s.Parent decl ancestor := by
  induction h with
  | here => exact .refl
  | up hl hmem _ ih => exact .head ⟨_, hl, _, hmem, rfl⟩ ih

/-- A way back to where it started has no step. -/
theorem eq_of_acyclic (hs : s.Acyclic) (h : s.Way decl decl args found) : args = found := by
  cases h with
  | here => rfl
  | up hl hmem h => exact absurd (.head' ⟨_, hl, _, hmem, rfl⟩ h.reaches) (hs decl)

/-- **Ways commute with rebuilding.** -/
theorem rebuild (hs : s.ParentsRegular k) {f : Var → Ty} (hf : Siteless f)
    (h : s.Way ancestor decl args found) (hfits : s.Fits decl args) :
    s.Way ancestor decl (args.map (Arg.rebuild f)) (found.map (Arg.rebuild f)) := by
  induction h with
  | here => exact .here _
  | up hl hmem _ ih =>
    refine .up hl hmem ?_
    rw [hs.own.inherited_rebuild hl hmem hf hfits]
    exact ih (hs.fit.inherited hl hmem _)

/-- A way from rebuilt arguments comes from a way from the arguments. -/
theorem of_rebuild (hs : s.ParentsRegular k) {f : Var → Ty} (hf : Siteless f)
    (h : s.Way ancestor decl (args.map (Arg.rebuild f)) found) (hfits : s.Fits decl args) :
    ∃ found', s.Way ancestor decl args found' ∧ found = found'.map (Arg.rebuild f) := by
  generalize hargs : args.map (Arg.rebuild f) = rebuilt at h
  induction h generalizing args with
  | here => exact ⟨args, .here args, hargs.symm⟩
  | up hl hmem _ ih =>
    subst hargs
    obtain ⟨found', hway, rfl⟩ :=
      ih (hs.fit.inherited hl hmem args) (hs.own.inherited_rebuild hl hmem hf hfits).symm
    exact ⟨found', .up hl hmem hway, rfl⟩

end Way

/-- The way that is followed is a way. -/
theorem SeenAs.way (h : s.SeenAs ancestor decl args found) : s.Way ancestor decl args found := by
  induction h with
  | here => exact .here _
  | up _ hlead _ ih =>
    obtain ⟨⟨l, hl, hmem⟩, _⟩ := leadsTo?_sound hlead
    exact .up hl hmem ih

/-- Where inheritance has no cycle, going up comes to an end. -/
theorem Acyclic.acc (hs : s.Acyclic) (hk : s.ParentsKnown) (decl : String) :
    Acc (fun e d => s.Parent d e) decl := by
  let R : {d // d ∈ s.enterable} → {d // d ∈ s.enterable} → Prop := fun e d =>
    Relation.TransGen s.Parent d.1 e.1
  have : IsTrans {d // d ∈ s.enterable} R := ⟨fun _ _ _ h h' => h'.trans h⟩
  have : Std.Irrefl R := ⟨fun d => hs d.1⟩
  have : Finite {d // d ∈ s.enterable} := s.enterable.finite_toSet.to_subtype
  have hwf : WellFounded R := Finite.wellFounded_of_trans_of_irrefl R
  have hacc : ∀ d : {d // d ∈ s.enterable}, Acc (fun e d => s.Parent d e) d.1 := by
    intro d
    induction d using hwf.induction with
    | _ d ih =>
      refine ⟨_, fun e he => ?_⟩
      obtain ⟨l, hl, n, hn, rfl⟩ := he
      exact ih ⟨n.decl, mem_enterable (hk d.1 l hl n hn)⟩ (.single ⟨l, hl, n, hn, rfl⟩)
  refine ⟨_, fun e he => ?_⟩
  obtain ⟨l, hl, n, hn, rfl⟩ := he
  exact hacc ⟨n.decl, mem_enterable (hk decl l hl n hn)⟩

/-- **Where inheritance has no cycle, there is a way to every ancestor that is followed.** -/
theorem SeenAs.exists (hs : s.Acyclic) (hk : s.ParentsKnown)
    (h : Relation.ReflTransGen s.Parent decl ancestor) (args : List Arg) :
    ∃ found, s.SeenAs ancestor decl args found := by
  induction hs.acc hk decl generalizing args with
  | intro decl _ ih =>
    by_cases hne : decl = ancestor
    · exact ⟨args, hne ▸ .here args⟩
    · have htrans : Relation.TransGen s.Parent decl ancestor := by
        rcases Relation.reflTransGen_iff_eq_or_transGen.1 h with heq | htrans
        · exact absurd heq.symm hne
        · exact htrans
      obtain ⟨parent, hlead⟩ := leadsTo?_complete hk htrans
      obtain ⟨⟨l, hl, hmem⟩, hreach⟩ := leadsTo?_sound hlead
      obtain ⟨found, hseen⟩ := ih parent.decl ⟨l, hl, parent, hmem, rfl⟩ hreach
        (s.inherited decl args parent)
      exact ⟨found, .up hne hlead hseen⟩

/-! ### Hierarchies -/

/-- Inheritance has no cycle, the top declaration is plain, the supertypes of every declaration are
applied types over its own parameters, whose names differ, and all ways from a declaration to an
ancestor come to equal types there. -/
structure Hierarchy (s : Setting) : Prop where
  object : s.PlainObject
  acyclic : s.Acyclic
  names : ∀ decl l, s.lineageOf decl = some l → (l.params.map TypeVar.name).Nodup
  parents : ∀ decl l, s.lineageOf decl = some l → ∀ n ∈ l.parents, n.toTy.Applied s l.params
  coherent : ∀ decl l, s.lineageOf decl = some l → ∀ ancestor found found',
    s.Way ancestor decl (ownArgs l.params) found → s.Way ancestor decl (ownArgs l.params) found' →
      Nominal.equal ⟨.common, ancestor, found⟩ ⟨.common, ancestor, found'⟩ = true

namespace Hierarchy

variable {ps : List TypeVar}

/-- Supertypes in a hierarchy are plain and over the parameters of their own declaration. -/
theorem parentsRegular (hs : s.Hierarchy) : s.ParentsRegular .plain := by
  intro decl l hl n hn
  have happ := hs.parents decl l hl n hn
  exact ⟨happ.regular, Bool.eq_false_iff.2 (not_hasWild happ.regular), happ.vars⟩

/-- With an argument for each parameter, what is passed on to a direct supertype is the supertype with the
arguments in the place of the parameters. -/
theorem inherited_eq_rebuild {l : Lineage} (hl : s.lineageOf decl = some l)
    (hlen : args.length = l.params.length) (parent : Nominal) :
    Ty.nominal .common parent.decl (s.inherited decl args parent) =
      parent.toTy.rebuild (Subst.zip l.params (args.filterMap Arg.type?)).image := by
  have hraw : ¬ (args = [] ∧ s.paramsOf decl ≠ []) := by
    rintro ⟨rfl, hne⟩
    rw [paramsOf_eq hl] at hne
    exact hne (List.length_eq_zero_iff.1 hlen.symm)
  rw [inherited, if_neg hraw, ← Ty.rebuild_nominal _ parent.site, paramsOf_eq hl]
  rfl

/-- What is passed on to a direct supertype makes it applied. -/
theorem applied_inherited (hs : s.Hierarchy) {l : Lineage} {parent : Nominal} {site : Site}
    (hl : s.lineageOf decl = some l) (hmem : parent ∈ l.parents)
    (h : (Ty.nominal site decl args).Applied s ps) :
    (Ty.nominal .common parent.decl (s.inherited decl args parent)).Applied s ps := by
  cases h with
  | nominal hl' hlen hwild htypes =>
    rw [hl] at hl'
    injection hl' with hl'
    subst hl'
    rw [inherited_eq_rebuild hl hlen]
    refine (hs.parents decl l hl parent hmem).rebuild fun p hp => ?_
    have hle : l.params.length ≤ (args.filterMap Arg.type?).length := by
      rw [length_types hwild, hlen]
    obtain ⟨t, ht, heq⟩ := image_zip_cases hp hle
    rw [heq]
    exact (htypes t (mem_types ht)).shape

/-- What a way comes to is applied. -/
theorem applied_way (hs : s.Hierarchy) {site : Site} (h : s.Way ancestor decl args found)
    (happ : (Ty.nominal site decl args).Applied s ps) :
    (Ty.nominal .common ancestor found).Applied s ps := by
  induction h generalizing site with
  | here =>
    cases happ with
    | nominal hl hlen hwild htypes => exact .nominal hl hlen hwild htypes
  | up hl hmem _ ih => exact ih (hs.applied_inherited hl hmem happ)

/-- A declaration applied to its own parameters is applied. -/
theorem applied_own {l : Lineage} (hl : s.lineageOf decl = some l) :
    (Ty.nominal .common decl (ownArgs l.params)).Applied s l.params := by
  refine .nominal hl (List.length_map _) (fits_own hl).2 fun t ht => ?_
  obtain ⟨p, hp, heq⟩ := List.mem_map.1 ht
  injection heq with heq
  exact heq ▸ .var hp

/-- Applied arguments without sites are the own parameters of the declaration with the arguments put
in. -/
theorem own_rebuild (hs : s.Hierarchy) {l : Lineage} (hl : s.lineageOf decl = some l)
    (hlen : args.length = l.params.length) (hwild : ∀ a ∈ args, a.isWild = false) :
    (ownArgs l.params).map (Arg.rebuild (Subst.zip l.params (args.filterMap Arg.type?)).image) =
      args.map Arg.shape := by
  have hcount : l.params.length = (args.filterMap Arg.type?).length := by
    rw [length_types hwild, hlen]
  have himage := Subst.image_zip hcount (keys_nodup (hs.names decl l hl))
  calc (ownArgs l.params).map (Arg.rebuild (Subst.zip l.params (args.filterMap Arg.type?)).image)
      = (l.params.map fun p => (Subst.zip l.params (args.filterMap Arg.type?)).image
          (.declared p)).map Arg.type := by rw [ownArgs, List.map_map, List.map_map]; rfl
    _ = ((args.filterMap Arg.type?).map Arg.type).map Arg.shape := by
        rw [himage, List.map_map, List.map_map]; rfl
    _ = args.map Arg.shape := by rw [Arg.map_types hwild]

/-- **All ways from an applied declaration to an ancestor come to the same.** -/
theorem way_unique (hs : s.Hierarchy) {site : Site} {found' : List Arg}
    (happ : (Ty.nominal site decl args).Applied s ps)
    (h : s.Way ancestor decl (args.map Arg.shape) found)
    (h' : s.Way ancestor decl (args.map Arg.shape) found') : found = found' := by
  cases happ with
  | @nominal _ _ _ l hl hlen hwild _ =>
    rw [← hs.own_rebuild hl hlen hwild] at h h'
    obtain ⟨own, hway, rfl⟩ := h.of_rebuild hs.parentsRegular (Subst.siteless_image _) (fits_own hl)
    obtain ⟨own', hway', rfl⟩ := h'.of_rebuild hs.parentsRegular (Subst.siteless_image _) (fits_own hl)
    have hequal := hs.coherent decl l hl ancestor own own' hway hway'
    have hshape := (hs.applied_way hway (applied_own hl)).shape_of_equal
      (hs.applied_way hway' (applied_own hl)) (keys_nodup (hs.names decl l hl)) hequal
    rw [Ty.shape_nominal, Ty.shape_nominal] at hshape
    injection hshape with _ _ hshape
    rw [← Arg.map_rebuild_shape, hshape, Arg.map_rebuild_shape]

end Hierarchy

/-! ### Catalogs that are hierarchies -/

/-- What the ways up of at most so many steps come to. -/
def waysUp (s : Setting) : Nat → String → List Arg → List (String × List Arg)
  | 0, decl, args => [(decl, args)]
  | steps + 1, decl, args =>
    (decl, args) :: (((s.lineageOf decl).map Lineage.parents).getD []).flatMap fun parent =>
      s.waysUp steps parent.decl (s.inherited decl args parent)

/-- A way passes no more declarations than its start is high. -/
theorem Way.mem_waysUp {height : String → Nat} (hheight : ∀ d e, s.Parent d e → height e < height d)
    (h : s.Way ancestor decl args found) {steps : Nat} (hsteps : height decl ≤ steps) :
    (ancestor, found) ∈ s.waysUp steps decl args := by
  induction h generalizing steps with
  | here => cases steps <;> simp [waysUp]
  | @up decl args found parent l hl hmem _ ih =>
    have hlt := hheight decl parent.decl ⟨l, hl, parent, hmem, rfl⟩
    obtain ⟨steps, rfl⟩ : ∃ n, steps = n + 1 := ⟨steps - 1, by omega⟩
    rw [waysUp, hl]
    exact List.mem_cons_of_mem _ (List.mem_flatMap.2 ⟨parent, hmem, ih (by omega)⟩)

/-- Whether all ways from each declaration to an ancestor come to equal types. -/
def isCoherent (s : Setting) : Bool :=
  s.catalog.decls.all fun d =>
    let ways := s.waysUp s.catalog.decls.length d.name (ownArgs d.vars)
    ways.all fun x => ways.all fun y =>
      x.1 != y.1 || Nominal.equal ⟨.common, x.1, x.2⟩ ⟨.common, y.1, y.2⟩

/-- **A grown catalog is a hierarchy** if its declarations stand in order, their supertypes are
applied, and all ways agree. -/
theorem Hierarchy.of_grown (h : s.catalog.Grown) (horder : s.catalog.InOrder)
    (hdecls : ∀ d ∈ s.catalog.decls, (d.vars.map TypeVar.name).Nodup ∧
      ∀ n ∈ d.parents, n.toTy.isApplied s d.vars = true)
    (hcoherent : s.isCoherent = true) : s.Hierarchy where
  object := h.plainObject
  acyclic := h.acyclic horder
  names decl l hl := by
    obtain ⟨d, hd, -, -, hparams, -⟩ := h.of_lineage hl
    exact hparams ▸ (hdecls d hd).1
  parents decl l hl n hn := by
    obtain ⟨d, hd, -, -, hparams, hparents⟩ := h.of_lineage hl
    rcases hparents n hn with hn | rfl
    · exact hparams ▸ .of_isApplied ((hdecls d hd).2 n hn)
    · exact .nominal h.plainObject rfl (by simp [Nominal.object]) (by simp [Nominal.object])
  coherent decl l hl ancestor found found' hway hway' := by
    obtain ⟨d, hd, rfl, -, hparams, -⟩ := h.of_lineage hl
    have hsteps : s.catalog.position d.name ≤ s.catalog.decls.length := by
      have := List.idxOf_le_length (a := d.name) (l := s.catalog.decls.map Declaration.name)
      rwa [List.length_map] at this
    rw [hparams] at hway hway'
    have hmem := hway.mem_waysUp (fun _ _ => h.position_lt horder) hsteps
    have hmem' := hway'.mem_waysUp (fun _ _ => h.position_lt horder) hsteps
    have hall := List.all_eq_true.1 (List.all_eq_true.1 (List.all_eq_true.1 hcoherent d hd) _ hmem) _
      hmem'
    simpa using hall

end Setting
end Generics
