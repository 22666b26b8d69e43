/-
# Views of applied declarations

An applied declaration, seen as one of its ancestors, is found by going up one supertype after another and
putting arguments in the place of parameters each time. Two things are said about what is found, where
inheritance has no cycle and supertypes are applied to as many arguments as is right and mention
parameters of their own declaration only (`Setting.Lineal`).

It makes no difference whether other types are put in the place of variables before or afterwards, up to
sites, also if the types put in mention the parameters that are replaced on the way
(`Setting.SeenAs.rebuild`). And to compare an applied declaration with one of another declaration is to
compare what it is seen as: once the declarations are the same, only arguments are left to compare.

Up to sites, types are equal if their shapes are, as long as intersections are flat; substitution keeps
them flat.
-/

import Generics.Proofs.Climbing

namespace Generics

/-! ### Flat types -/

/-- The substitution gives flat types only. -/
def Subst.IsFlat (σ : Subst) : Prop := ∀ v t, σ.lookup v = some t → t.isFlat = true

/-- Variables paired with flat arguments are given flat types. -/
theorem Subst.IsFlat.zip (vs : List TypeVar) {as : List Arg} (h : Arg.allFlat as = true) :
    (Subst.zip vs (as.filterMap Arg.type?)).IsFlat := by
  intro v t ht
  have := Arg.allFlat_iff.1 h _ (Setting.mem_types (Subst.mem_of_lookup_zip ht))
  rwa [Arg.isFlat] at this

/-- What a flat type consists of is flat. -/
theorem Ty.allFlat_conjuncts {t : Ty} (h : t.isFlat = true) : Ty.allFlat t.conjuncts = true := by
  cases t with
  | inter site members => exact h
  | _ => simpa [Ty.conjuncts, Ty.allFlat, Ty.isInter] using h

/-- Joining flat types gives a flat type. -/
theorem Ty.isFlat_meet (site : Site) {ts : List Ty} (h : ∀ t ∈ ts, t.isFlat = true) :
    (Ty.meet site ts).isFlat = true := by
  have hflat : Ty.allFlat (ts.flatMap Ty.conjuncts) = true := by
    refine Ty.allFlat_iff.2 fun c hc => ?_
    obtain ⟨t, ht, hc⟩ := List.mem_flatMap.1 hc
    exact Ty.allFlat_iff.1 (Ty.allFlat_conjuncts (h t ht)) c hc
  rw [Ty.meet]
  split
  · rfl
  · rw [Ty.isFlat]
    exact hflat

mutual
/-- **Substitution keeps types flat.** -/
theorem Ty.isFlat_subst {σ : Subst} (hσ : σ.IsFlat) (site : Site) :
    ∀ {t : Ty}, t.isFlat = true → (t.subst σ site).isFlat = true
  | .prim _, _ => rfl
  | .null, _ => rfl
  | .nominal _ _ as, h => by
    have has := Arg.allFlat_subst hσ site 0 (show Arg.allFlat as = true by rwa [Ty.isFlat] at h)
    rw [Ty.subst, Ty.subst?]
    cases hs : Arg.substAll? σ site 0 as with
    | none => exact h
    | some bs =>
      rw [hs] at has
      rwa [Option.map_some, Option.getD_some, Ty.isFlat]
  | .array e, h => by
    have he := Ty.isFlat_subst hσ site (t := e) (by rwa [Ty.isFlat] at h)
    rw [Ty.subst] at he
    rw [Ty.subst, Ty.subst?]
    cases hs : e.subst? σ site with
    | none => exact h
    | some e' =>
      rw [hs] at he
      rwa [Option.map_some, Option.getD_some, Ty.isFlat]
  | .inter _ ms, h => by
    rw [Ty.isFlat, Ty.allFlat_iff] at h
    have hms := Ty.isFlat_substAll hσ site 0 fun t (ht : t ∈ ms) => (h t ht).2
    rw [Ty.subst, Ty.subst?]
    cases hs : Ty.substAll? σ site 0 ms with
    | none =>
      rw [Option.map_none, Option.getD_none, Ty.isFlat]
      exact Ty.allFlat_iff.2 h
    | some ms' =>
      rw [hs] at hms
      exact Ty.isFlat_meet site hms
  | .var v, _ => by
    rw [Ty.subst, Ty.subst?]
    cases hv : σ.lookup v with
    | none => rfl
    | some u =>
      by_cases hu : u = .var v
      · simp [Option.filter, hu, Ty.isFlat]
      · simpa [Option.filter, hu] using hσ v u hv

/-- Substituting flat types in a flat argument gives a flat argument. -/
theorem Arg.isFlat_subst {σ : Subst} (hσ : σ.IsFlat) (site : Site) :
    ∀ {a : Arg}, a.isFlat = true → ((a.subst? σ site).getD a).isFlat = true
  | .type t, h => by
    have ht := Ty.isFlat_subst hσ site (t := t) (by rwa [Arg.isFlat] at h)
    rw [Ty.subst] at ht
    rw [Arg.subst?]
    cases hs : t.subst? σ site with
    | none => exact h
    | some t' =>
      rw [hs] at ht
      rwa [Option.map_some, Option.getD_some, Arg.isFlat]
  | .wild u l, h => by
    rw [Arg.isFlat, Bool.and_eq_true] at h
    have hu := Ty.isFlat_subst hσ (site.part 0) h.1
    have hl := Ty.isFlat_subst hσ (site.part 1) h.2
    rw [Ty.subst] at hu hl
    rw [Arg.subst?]
    cases hsu : u.subst? σ (site.part 0) <;> cases hsl : l.subst? σ (site.part 1) <;>
      simp_all [Arg.isFlat]

/-- The same for the members of an intersection. -/
theorem Ty.isFlat_substAll {σ : Subst} (hσ : σ.IsFlat) (site : Site) :
    ∀ (i : Nat) {ts : List Ty}, (∀ t ∈ ts, t.isFlat = true) →
      ∀ t ∈ (Ty.substAll? σ site i ts).getD ts, t.isFlat = true
  | _, [], _ => by simp [Ty.substAll?]
  | i, t :: ts, h => by
    obtain ⟨ht, hts⟩ := List.forall_mem_cons.1 h
    have ht := Ty.isFlat_subst hσ (site.part i) ht
    have hts := Ty.isFlat_substAll hσ site (i + 1) hts
    rw [Ty.subst] at ht
    rw [Ty.substAll?]
    cases hst : t.subst? σ (site.part i) <;> cases hss : Ty.substAll? σ site (i + 1) ts <;>
      simp_all

/-- The same for arguments. -/
theorem Arg.allFlat_subst {σ : Subst} (hσ : σ.IsFlat) (site : Site) :
    ∀ (i : Nat) {as : List Arg}, Arg.allFlat as = true →
      Arg.allFlat ((Arg.substAll? σ site i as).getD as) = true
  | _, [], _ => rfl
  | i, a :: as, h => by
    rw [Arg.allFlat, Bool.and_eq_true] at h
    have ha := Arg.isFlat_subst hσ (site.part i) h.1
    have has := Arg.allFlat_subst hσ site (i + 1) h.2
    rw [Arg.substAll?]
    cases hsa : a.subst? σ (site.part i) <;> cases hss : Arg.substAll? σ site (i + 1) as <;>
      simp_all [Arg.allFlat]
end

/-- The members of a flat intersection keep their places in the shape. -/
theorem Ty.rebuildParts_of_flat {ts : List Ty} (h : Ty.allFlat ts = true) :
    Ty.rebuildParts .var ts = ts.map Ty.shape :=
  Ty.rebuildParts_eq_map fun t ht => (Ty.isInter_shape t).trans (Ty.allFlat_iff.1 h t ht).1

mutual
/-- **Flat types of one shape are equal.** -/
theorem Ty.sameShape_of_shape : ∀ {a b : Ty}, a.isFlat = true → b.isFlat = true →
    a.shape = b.shape → a.sameShape b = true
  | .prim p, b, _, _, h => by
    cases b <;> simp_all [Ty.shape, Ty.rebuild, Ty.sameShape]
  | .null, b, _, _, h => by
    cases b <;> simp_all [Ty.shape, Ty.rebuild, Ty.sameShape]
  | .nominal _ _ as, b, ha, hb, h => by
    cases b with
    | nominal _ _ bs =>
      simp only [Ty.shape, Ty.rebuild, Ty.nominal.injEq, true_and] at h
      rw [Ty.isFlat] at ha hb
      rw [Ty.sameShape, Bool.and_eq_true, beq_iff_eq]
      exact ⟨h.1, Arg.sameShapeAll_of_shape ha hb h.2⟩
    | _ => simp [Ty.shape, Ty.rebuild] at h
  | .array e, b, ha, hb, h => by
    cases b with
    | array e' =>
      simp only [Ty.shape, Ty.rebuild, Ty.array.injEq] at h
      rw [Ty.isFlat] at ha hb
      rw [Ty.sameShape]
      exact Ty.sameShape_of_shape ha hb h
    | _ => simp [Ty.shape, Ty.rebuild] at h
  | .inter _ ms, b, ha, hb, h => by
    cases b with
    | inter _ ns =>
      rw [Ty.isFlat] at ha hb
      simp only [Ty.shape, Ty.rebuild, Ty.inter.injEq, true_and, Ty.rebuildParts_of_flat ha,
        Ty.rebuildParts_of_flat hb] at h
      rw [Ty.sameShape]
      exact Ty.sameShapeAll_of_shape ha hb h
    | _ => simp [Ty.shape, Ty.rebuild] at h
  | .var v, b, _, _, h => by
    cases b <;> simp_all [Ty.shape, Ty.rebuild, Ty.sameShape]

/-- Flat arguments that rebuild alike have one shape. -/
theorem Arg.sameShape_of_shape : ∀ {a b : Arg}, a.isFlat = true → b.isFlat = true →
    a.rebuild .var = b.rebuild .var → a.sameShape b = true
  | .type t, b, ha, hb, h => by
    cases b with
    | type u =>
      simp only [Arg.rebuild, Arg.type.injEq] at h
      rw [Arg.isFlat] at ha hb
      rw [Arg.sameShape]
      exact Ty.sameShape_of_shape ha hb h
    | wild _ _ => simp [Arg.rebuild] at h
  | .wild u l, b, ha, hb, h => by
    cases b with
    | type _ => simp [Arg.rebuild] at h
    | wild u' l' =>
      simp only [Arg.rebuild, Arg.wild.injEq] at h
      rw [Arg.isFlat, Bool.and_eq_true] at ha hb
      rw [Arg.sameShape, Bool.and_eq_true]
      exact ⟨Ty.sameShape_of_shape ha.1 hb.1 h.1, Ty.sameShape_of_shape ha.2 hb.2 h.2⟩

/-- The same for the members of an intersection. -/
theorem Ty.sameShapeAll_of_shape : ∀ {as bs : List Ty}, Ty.allFlat as = true → Ty.allFlat bs = true →
    as.map Ty.shape = bs.map Ty.shape → Ty.sameShapeAll as bs = true
  | [], bs, _, _, h => by
    rw [List.map_nil, eq_comm, List.map_eq_nil_iff] at h
    rw [h, Ty.sameShapeAll]
  | a :: as, bs, ha, hb, h => by
    obtain ⟨b, bs, rfl, hab, h⟩ := List.map_eq_cons_iff.1 h.symm
    rw [Ty.allFlat, Bool.and_eq_true, Bool.and_eq_true] at ha hb
    rw [Ty.sameShapeAll, Bool.and_eq_true]
    exact ⟨Ty.sameShape_of_shape ha.1.2 hb.1.2 hab.symm, Ty.sameShapeAll_of_shape ha.2 hb.2 h.symm⟩

/-- The same for arguments. -/
theorem Arg.sameShapeAll_of_shape : ∀ {as bs : List Arg}, Arg.allFlat as = true →
    Arg.allFlat bs = true → Arg.rebuildAll .var as = Arg.rebuildAll .var bs →
      Arg.sameShapeAll as bs = true
  | [], bs, _, _, h => by
    cases bs with
    | nil => rw [Arg.sameShapeAll]
    | cons b bs => simp [Arg.rebuildAll] at h
  | a :: as, bs, ha, hb, h => by
    cases bs with
    | nil => simp [Arg.rebuildAll] at h
    | cons b bs =>
      simp only [Arg.rebuildAll, List.cons.injEq] at h
      rw [Arg.allFlat, Bool.and_eq_true] at ha hb
      rw [Arg.sameShapeAll, Bool.and_eq_true]
      exact ⟨Arg.sameShape_of_shape ha.1 hb.1 h.1, Arg.sameShapeAll_of_shape ha.2 hb.2 h.2⟩
end

/-- Substituting in an applied declaration keeps the declaration and rebuilds the arguments. -/
theorem Nominal.subst_eq {σ : Subst} {site : Site} {n nσ : Nominal} (h : nσ.toTy = n.toTy.subst σ site) :
    nσ.decl = n.decl ∧ nσ.args.map Arg.shape = n.args.map (Arg.rebuild σ.image) := by
  have hshape := Ty.shape_subst σ site n.toTy
  rw [← h, Nominal.toTy, Nominal.toTy, Ty.shape_nominal, Ty.rebuild_nominal] at hshape
  injection hshape with _ hdecl hargs
  exact ⟨hdecl, hargs⟩

/-- Asked in memories that differ in what was learnt only, an oblivious question has one answer. -/
theorem Query.Oblivious.answer_eq {α : Type} {s : Setting} {q : Query α} {a b : α}
    {m m' m₁ m₁' : Memory} (hq : Query.Oblivious s q) (hm : m.Faithful s) (hm' : m'.Faithful s)
    (hlearns : m.Learns m') (ha : q.Answers m a m₁) (hb : q.Answers m' b m₁') :
    a = b ∧ m₁.Learns m₁' := by
  obtain ⟨hsame, hlearns'⟩ := hq.same m m' hm hm' hlearns
  rw [show q.outcome m = (.ok a, m₁) from ha, show q.outcome m' = (.ok b, m₁') from hb] at hsame hlearns'
  cases hsame
  exact ⟨rfl, hlearns'⟩

namespace Setting

open Query

variable {s : Setting} {n n' : Nominal} {ancestor : String} {m m₁ : Memory}

/-- Inheritance has no cycle, the top declaration is plain, and supertypes are flat, fit their declarations
and mention parameters of their own declaration only. -/
structure Lineal (s : Setting) : Prop where
  acyclic : s.Acyclic
  object : s.PlainObject
  fit : s.ParentsFit
  own : s.ParentsOwn
  flat : ∀ decl l, s.lineageOf decl = some l → ∀ p ∈ l.parents, p.toTy.isFlat = true

/-- In a catalog that was grown, only cycles and numbers of arguments are left to look at. -/
theorem Lineal.of_grown (h : s.catalog.Grown) (hacyc : s.Acyclic)
    (hcounts : ∀ d ∈ s.catalog.decls, ∀ p ∈ d.parents, s.Applies p.decl p.args.length) : s.Lineal where
  acyclic := hacyc
  object := h.plainObject
  fit := parentsFit_of_counts h.declared.selfContained hcounts
  own decl l hl p hp v hv := by
    obtain ⟨d, hd, -, -, hparams, hparents⟩ := h.of_lineage hl
    rcases hparents p hp with hp | rfl
    · have hwritten := ((h.orderly.decls d hd).parents p hp).1
      obtain ⟨w, hw, rfl⟩ := (hwritten.vars v hv).mem
      exact ⟨w, hparams ▸ hw, rfl⟩
    · cases hv
  flat decl l hl p hp := by
    obtain ⟨d, hd, -, -, -, hparents⟩ := h.of_lineage hl
    rcases hparents p hp with hp | rfl
    · exact ((h.orderly.decls d hd).parents p hp).1.flat
    · rfl

/-- A flat declaration becomes a flat one on the way up. -/
theorem Becomes.isFlat (hs : s.Lineal) {parent : Nominal} (h : s.Becomes parent n n')
    (hlead : Settles s (s.leadsTo? n.decl ancestor) (.ok (some parent))) (hn : n.toTy.isFlat = true) :
    n'.toTy.isFlat = true := by
  obtain ⟨⟨l, hl, hmem⟩, -⟩ := leadsTo?_sound hlead
  have hparent := hs.flat _ l hl parent hmem
  cases h with
  | raw => rfl
  | plain => exact hparent
  | applied site _ _ hsubst =>
    rw [hsubst]
    rw [Nominal.toTy, Ty.isFlat] at hn
    exact Ty.isFlat_subst (.zip _ hn) site hparent

/-- The second applied declaration is the first one seen as the ancestor. -/
structure View (s : Setting) (n : Nominal) (ancestor : String) (n' : Nominal) : Prop where
  decl : n'.decl = ancestor
  fits : s.Fits n'.decl n'.args
  flat : n'.toTy.isFlat = true
  top : ancestor = objectName → n' = .object
  seen : ancestor ≠ objectName →
    s.SeenAs ancestor n.decl (n.args.map Arg.shape) (n'.args.map Arg.shape)

/-- **An applied declaration is seen as its ancestors**, and as nothing else. -/
theorem seenAs_view (hs : s.Lineal) (hm : m.Faithful s) (hfits : s.Fits n.decl n.args)
    (hflat : n.toTy.isFlat = true) (ancestor : String) :
    ∃ r m', (s.seenAs n ancestor).Answers m r m' ∧ m.Stays s m' ∧
      (r = none ↔ ¬ s.Ancestor n.decl ancestor) ∧ ∀ n' ∈ r, s.View n ancestor n' := by
  by_cases hobject : ancestor = objectName
  · subst hobject
    obtain ⟨l, hl, -⟩ := hfits.1
    obtain ⟨m', hseen, hfaithful, hlearns⟩ := seenAs_object hl hm
    refine ⟨some .object, m', hseen, ⟨hfaithful, hlearns.keeps⟩,
      ⟨by simp, fun h => absurd (.inr (.inl rfl)) h⟩, ?_⟩
    rintro _ ⟨⟩
    exact ⟨rfl, fits_nil hs.object, rfl, fun _ => rfl, fun h => absurd rfl h⟩
  · obtain ⟨r, m', h⟩ := climb_total hs.fit ancestor hm hfits fun d _ => hs.acyclic.way ancestor d
    obtain ⟨hstays, -, hsome⟩ := climb_keeps
      (P := fun n => s.Fits n.decl n.args ∧ n.toTy.isFlat = true)
      (fun hn _ hlead hbecomes => ⟨hbecomes.fits hlead hs.fit, hbecomes.isFlat hs hlead hn.2⟩)
      hm ⟨hfits, hflat⟩ h
    refine ⟨r, m', by rwa [seenAs, if_neg hobject], hstays, ⟨?_, fun hanc => ?_⟩, fun n' hn' => ?_⟩
    · rintro rfl hanc
      obtain ⟨n', hn'⟩ := climb_some hs.fit.known hm (hanc.reaches hobject) h
      cases hn'
    · refine Option.eq_none_iff_forall_ne_some.2 fun n' hn' => hanc ?_
      have hway := (hsome n' hn').2.2.heads hs.fit.known
      exact (Relation.reflTransGen_iff_eq_or_transGen.1 (Heads.parents hway)).imp Eq.symm .inr
    · obtain ⟨hdecl, ⟨hfits', hflat'⟩, hseen⟩ := hsome n' hn'
      exact ⟨hdecl, hfits', hflat', fun h => absurd h hobject, fun _ => hseen⟩

/-- **Seeing commutes with substitution**, up to sites. -/
theorem View.subst (hs : s.Lineal) (hfits : s.Fits n.decl n.args) {σ : Subst} (hσ : σ.IsFlat)
    {site : Site} {nσ a b : Nominal} (hn : nσ.toTy = n.toTy.subst σ site) (ha : s.View n ancestor a)
    (hb : s.View nσ ancestor b) (site' : Site) : (a.toTy.subst σ site').equal b.toTy = true := by
  refine Ty.equal_of_sameShape (Ty.sameShape_of_shape (Ty.isFlat_subst hσ site' ha.flat) hb.flat ?_)
  rw [Ty.shape_subst]
  by_cases hobject : ancestor = objectName
  · rw [ha.top hobject, hb.top hobject]
    rfl
  · obtain ⟨hdecl, hargs⟩ := Nominal.subst_eq hn
    have hseen := (ha.seen hobject).rebuild hs.fit hs.own σ.siteless_image (fits_shape.2 hfits)
    rw [Arg.map_rebuild_shape, Arg.map_rebuild_shape, ← hdecl, ← hargs] at hseen
    rw [Nominal.toTy, Nominal.toTy, Ty.rebuild_nominal, Ty.shape_nominal, ha.decl, hb.decl,
      hseen.unique (hb.seen hobject)]

/-! ### Comparing what is seen -/

/-- Whether the arguments of the second declaration contain those of the first one, if there are as
many. -/
def argsBelowBy (sub : Ty → Ty → Query Bool) (n b : Nominal) : Query Bool :=
  if n.args.length = b.args.length then containsAllBy sub b.args n.args else pure false

/-- Flat arguments without wildcards contain themselves. -/
theorem containsAllBy_self (sub : Ty → Ty → Query Bool) {as : List Arg} (hflat : Arg.allFlat as = true)
    (hwild : ∀ a ∈ as, a.isWild = false) : containsAllBy sub as as = pure true := by
  induction as with
  | nil => rfl
  | cons a as ih =>
    obtain ⟨ha, has⟩ := List.forall_mem_cons.1 hwild
    rw [Arg.allFlat, Bool.and_eq_true] at hflat
    cases a with
    | wild u l => cases ha
    | type t =>
      rw [Arg.isFlat] at hflat
      have hequal : t.equal t = true :=
        Ty.equal_of_sameShape (Ty.sameShape_of_shape hflat.1 hflat.1 rfl)
      rw [containsAllBy, containsBy, equivalentBy, if_pos hequal, ih hflat.2 has, both, pure_bind]
      rfl

/-- Comparing arguments is oblivious of what was learnt. -/
theorem argsBelowBy_oblivious (s : Setting) (depth : Nat) (n b : Nominal) :
    Oblivious s (argsBelowBy (s.belowWithin depth []) n b) := by
  refine (Composed.ite (fun _ => ?_) fun _ => .pure trivial : Query.Stays s .all _).oblivious
  exact containsAllBy_composed (fun ha hb => belowWithin_composed (Realm.closed_all _) depth [] ha hb)
    (fun a _ => a.in_all) fun a _ => a.in_all

section Comparing

variable {sub : Ty → Ty → Query Bool} {b : Nominal} {μ μ' : Memory} {v : Bool}

/-- **A comparison with an applied declaration compares what is seen as that declaration**, and is answered
with no if nothing is. -/
theorem nominalBelowBy_view (hs : s.Lineal) {l : Lineage} (hl : s.lineageOf n.decl = some l)
    (hlen : n.args.length = l.params.length) (hwild : n.hasWild = false) (hb : b.args ≠ [])
    (hm : m.Faithful s) {r : Option Nominal} (hseen : (s.seenAs n b.decl).Answers m r m₁)
    (hr : r = none ↔ ¬ s.Ancestor n.decl b.decl) (hμ : μ.Faithful s) (hlearns : m.Learns μ)
    (h : (s.nominalBelowBy sub n b).Answers μ v μ') :
    (r = none → v = false) ∧ ∀ n' ∈ r, ∃ μ₁, μ₁.Faithful s ∧ m₁.Learns μ₁ ∧
      (argsBelowBy sub n' b).Answers μ₁ v μ' := by
  have hknown : (s.lineageOf n.decl).isSome := by rw [hl]; rfl
  obtain ⟨i, μ₁, hi, h⟩ := answers_bind.1 h
  obtain ⟨hinherits, hμ₁, hlearns₁⟩ := (inherits_steady s n.decl b.decl).settles hμ hi
  cases i with
  | false =>
    obtain ⟨rfl, rfl⟩ := answers_pure.1 h
    refine ⟨fun _ => rfl, fun n' hn' => ?_⟩
    have hanc : s.Ancestor n.decl b.decl := by
      refine Classical.byContradiction fun hanc => ?_
      rw [hr.2 hanc] at hn'
      cases hn'
    cases hinherits.unique ((inherits_iff hs.fit.known hknown).2 hanc)
  | true =>
    rw [if_pos rfl, if_neg (by simpa using hb)] at h
    obtain ⟨raw, μ₂, hraw, h⟩ := answers_bind.1 h
    obtain ⟨hsettles, hμ₂, hlearns₂⟩ := Steady.settles ⟨_, isRaw_settles hl⟩ hμ₁ hraw
    have hempty : n.args.isEmpty = l.params.isEmpty := by
      rw [Bool.eq_iff_iff, List.isEmpty_iff, List.isEmpty_iff, ← List.length_eq_zero_iff, hlen,
        List.length_eq_zero_iff]
    obtain rfl : raw = false := by
      have := hsettles.unique (isRaw_settles hl)
      injection this with this
      rw [this, hempty, Bool.and_not_self]
    obtain ⟨r', μ₃, hsuper, h⟩ := answers_bind.1 h
    have hview : s.supertypeAs n b.decl = s.seenAs n b.decl := by
      rw [supertypeAs, capture, if_neg (by simp [hwild]), pure_bind]
    rw [hview] at hsuper
    have hoblivious := (seenAs_composed (Realm.closed_all s.catalog) n.in_all b.decl).oblivious
    have hμ₃ := Preserves.answers hoblivious.faithful hμ₂ hsuper
    obtain ⟨rfl, hlearns₃⟩ := hoblivious.answer_eq hm hμ₂
      (hlearns.trans (hlearns₁.trans hlearns₂)) hseen hsuper
    cases r with
    | none =>
      obtain ⟨rfl, rfl⟩ := answers_pure.1 h
      exact ⟨fun _ => rfl, by simp⟩
    | some n' =>
      refine ⟨by simp, ?_⟩
      rintro _ ⟨⟩
      exact ⟨μ₃, hμ₃, hlearns₃, h⟩

/-- A raw declaration is below raw declarations only. -/
theorem nominalBelowBy_raw {l : Lineage} (hl : s.lineageOf n.decl = some l) (hargs : n.args = [])
    (hparams : l.params ≠ []) (hb : b.args ≠ []) (hμ : μ.Faithful s)
    (h : (s.nominalBelowBy sub n b).Answers μ v μ') : v = false := by
  obtain ⟨i, μ₁, hi, h⟩ := answers_bind.1 h
  obtain ⟨-, hμ₁, -⟩ := (inherits_steady s n.decl b.decl).settles hμ hi
  cases i with
  | false => exact (answers_pure.1 h).1
  | true =>
    rw [if_pos rfl, if_neg (by simpa using hb)] at h
    obtain ⟨raw, μ₂, hraw, h⟩ := answers_bind.1 h
    obtain ⟨hiff, -⟩ := isRaw_answers hl hμ₁ hraw
    obtain rfl : raw = true := hiff.2 ⟨hargs, paramsOf_eq hl ▸ hparams⟩
    exact (answers_pure.1 h).1

/-- Seen as its own declaration, an applied declaration has its own arguments. -/
theorem seenAs_self (hs : s.PlainObject) (hfits : s.Fits n.decl n.args) (hm : m.Faithful s) :
    ∃ n' m', (s.seenAs n n.decl).Answers m (some n') m' ∧ n'.args = n.args ∧ m.Learns m' := by
  by_cases hobject : n.decl = objectName
  · have hl : s.lineageOf n.decl = some ⟨objectName, [], []⟩ := by rwa [hobject]
    obtain ⟨m', hseen, -, hlearns⟩ := seenAs_object hl hm
    refine ⟨.object, m', by rwa [hobject], ?_, hlearns⟩
    exact ((hfits.1.eq_nil_or hl).elim id List.length_eq_zero_iff.1).symm
  · refine ⟨n, m, ?_, rfl, .refl m⟩
    rw [seenAs, if_neg hobject, climb_here rfl]
    exact answers_pure.2 ⟨rfl, rfl⟩

/-- Between applications of one declaration the arguments are compared. -/
theorem nominalBelowBy_same (hs : s.Lineal) (hfits : s.Fits n.decl n.args) (hdecl : n.decl = b.decl)
    (hb : b.args ≠ []) (hμ : μ.Faithful s) (h : (s.nominalBelowBy sub n b).Answers μ v μ') :
    ∃ μ₁ μ₂, μ₁.Faithful s ∧ μ.Learns μ₁ ∧ (argsBelowBy sub n b).Answers μ₁ v μ₂ := by
  obtain ⟨l, hl, hlen⟩ := hfits.1
  by_cases hraw : n.args = [] ∧ l.params ≠ []
  · obtain rfl := nominalBelowBy_raw hl hraw.1 hraw.2 hb hμ h
    refine ⟨μ, μ, hμ, .refl μ, ?_⟩
    rw [argsBelowBy, if_neg (by simpa [hraw.1, eq_comm] using hb)]
    exact answers_pure.2 ⟨rfl, rfl⟩
  · have hlen : n.args.length = l.params.length := by
      rcases hlen with hnil | hlen
      · have hargs := List.length_eq_zero_iff.1 hnil
        have hparams : l.params = [] := Classical.byContradiction fun hne => hraw ⟨hargs, hne⟩
        rw [hargs, hparams]
        rfl
      · exact hlen
    have hwild : n.hasWild = false := List.any_eq_false.2 fun a ha => by simp [hfits.2 a ha]
    obtain ⟨n', μ₁, hseen, hargs, hlearns⟩ := seenAs_self hs.object hfits hμ
    rw [hdecl] at hseen
    obtain ⟨-, hview⟩ := nominalBelowBy_view hs hl hlen hwild hb hμ hseen
      ⟨by simp, fun hanc => absurd (.inl hdecl) hanc⟩ hμ (.refl μ) h
    obtain ⟨μ₂, hμ₂, hlearns₂, hsame⟩ := hview n' rfl
    refine ⟨μ₂, μ', hμ₂, hlearns.trans hlearns₂, ?_⟩
    rwa [argsBelowBy, hargs] at hsame

end Comparing

/-- A comparison of applied declarations is answered at once if they are one occurrence. -/
theorem below_nominal_answers {b : Nominal} {μ μ' : Memory} {v : Bool}
    (h : (s.below n.toTy b.toTy).Answers μ v μ') : ∃ depth, s.depth = depth + 1 ∧
      ((n = b ∧ v = true) ∨
        n ≠ b ∧ (s.nominalBelowBy (s.belowWithin depth []) n b).Answers μ v μ') := by
  rw [below] at h
  cases hdepth : s.depth with
  | zero =>
    rw [hdepth, belowWithin.eq_def] at h
    exact absurd h answers_throw
  | succ depth =>
    rw [hdepth] at h
    refine ⟨depth, rfl, ?_⟩
    by_cases hne : n = b
    · subst hne
      rw [belowWithin.eq_def] at h
      dsimp only at h
      rw [if_neg (by simp [Nominal.toTy]), if_pos rfl] at h
      exact .inl ⟨rfl, (answers_pure.1 h).1⟩
    · refine .inr ⟨hne, ?_⟩
      rwa [Nominal.toTy, Nominal.toTy, belowWithin_nominal] at h
      rw [Ne, Ty.nominal.injEq]
      exact fun h => hne (Nominal.mk.injEq .. ▸ h)

/-- **To be below an application of the ancestor is to be seen as something that is below it.** -/
theorem below_view (hs : s.Lineal) {l : Lineage} (hl : s.lineageOf n.decl = some l)
    (hlen : n.args.length = l.params.length) (hwild : n.hasWild = false) (hflat : n.toTy.isFlat = true)
    {b : Nominal} (hb : b.args ≠ []) (hm : m.Faithful s) {r : Option Nominal}
    (hseen : (s.seenAs n b.decl).Answers m r m₁) (hr : r = none ↔ ¬ s.Ancestor n.decl b.decl)
    (hview : ∀ n' ∈ r, s.View n b.decl n') {μ μ' : Memory} (hμ : μ.Faithful s) (hlearns : m.Learns μ)
    {v : Bool} (h : (s.below n.toTy b.toTy).Answers μ v μ') :
    (r = none → v = false) ∧ ∀ n' ∈ r, ∀ {μ₁ v' μ₁'}, μ₁.Faithful s → m₁.Learns μ₁ →
      (s.below n'.toTy b.toTy).Answers μ₁ v' μ₁' → v' = v := by
  obtain ⟨depth, hdepth, ⟨rfl, rfl⟩ | ⟨hne, h⟩⟩ := below_nominal_answers h
  · -- one occurrence: its arguments are those that are seen, and contain themselves
    refine ⟨fun hnone => absurd (.inl rfl) (hr.1 hnone), fun n' hn' μ₁ v' μ₁' hμ₁ hlearns₁ h' => ?_⟩
    have hfits : s.Fits n.decl n.args :=
      ⟨⟨l, hl, .inr hlen⟩, fun a ha => by simpa using List.any_eq_false.1 hwild a ha⟩
    obtain ⟨n'', m₂, hself, hargs, -⟩ := seenAs_self hs.object hfits hm
    obtain rfl : r = some n'' := (hseen.unique hself).1
    obtain rfl : n'' = n' := by simpa using hn'
    obtain ⟨depth', -, ⟨-, rfl⟩ | ⟨hne, h'⟩⟩ := below_nominal_answers h'
    · rfl
    · have hview := hview n'' rfl
      obtain ⟨μ₂, μ₃, -, -, hsame⟩ := nominalBelowBy_same hs hview.fits hview.decl hb hμ₁ h'
      rw [Nominal.toTy, Ty.isFlat] at hflat
      rw [argsBelowBy, hargs, if_pos rfl, containsAllBy_self _ hflat hfits.2] at hsame
      exact (answers_pure.1 hsame).1
  · obtain ⟨hnone, hsome⟩ := nominalBelowBy_view hs hl hlen hwild hb hm hseen hr hμ hlearns h
    refine ⟨hnone, fun n' hn' μ₁ v' μ₁' hμ₁ hlearns₁ h' => ?_⟩
    obtain ⟨μ₂, hμ₂, hlearns₂, hargs⟩ := hsome n' hn'
    have hview := hview n' hn'
    obtain ⟨depth', hdepth', ⟨rfl, rfl⟩ | ⟨hne', h'⟩⟩ := below_nominal_answers h'
    · have hflat := hview.flat
      rw [Nominal.toTy, Ty.isFlat] at hflat
      rw [argsBelowBy, if_pos rfl, containsAllBy_self _ hflat hview.fits.2] at hargs
      exact (answers_pure.1 hargs).1.symm
    · obtain rfl : depth = depth' := by omega
      obtain ⟨μ₃, μ₄, hμ₃, hlearns₃, hargs'⟩ := nominalBelowBy_same hs hview.fits hview.decl hb hμ₁ h'
      exact ((argsBelowBy_oblivious s depth n' b).answer_eq hμ₃ hμ₂
        ((hlearns₁.trans hlearns₃).symm.trans hlearns₂) hargs' hargs).1

/-- **Seeing a declaration as an ancestor commutes with substitution, and comparisons go through it.** Let an
applied declaration have as many arguments as its declaration has parameters, none of them a wildcard, and
let it be seen as any declaration.

- What is seen, if anything, is an application of that declaration.
- After a substitution, by any flat types, something is seen exactly if it was before, and it is what the
  substitution makes of what was seen before, up to sites.
- Wherever a comparison with an application of that declaration to arguments is answered, it is answered
  with no if nothing is seen, and as the comparison of what is seen otherwise. What was learnt of
  declarations in the meantime makes no difference. -/
theorem seenAs_subst_factors (hs : s.Lineal) {l : Lineage} (hl : s.lineageOf n.decl = some l)
    (hlen : n.args.length = l.params.length) (hwild : n.hasWild = false) (hflat : n.toTy.isFlat = true)
    (ancestor : String) {σ : Subst} (hσ : σ.IsFlat) (hm : m.Faithful s) :
    ∃ r m₁, (s.seenAs n ancestor).Answers m r m₁ ∧ (∀ n' ∈ r, n'.decl = ancestor) ∧
      (∀ (site : Site) (nσ : Nominal), nσ.toTy = n.toTy.subst σ site → ∀ μ : Memory, μ.Faithful s →
        ∃ rσ μ', (s.seenAs nσ ancestor).Answers μ rσ μ' ∧
          Option.Rel (fun a b => ∀ site', (a.toTy.subst σ site').equal b.toTy = true) r rσ) ∧
      ∀ b : Nominal, b.decl = ancestor → b.args ≠ [] →
        ∀ μ v μ', μ.Faithful s → m.Learns μ → (s.below n.toTy b.toTy).Answers μ v μ' →
          (r = none → v = false) ∧ ∀ n' ∈ r, ∀ μ₁ v' μ₁', μ₁.Faithful s → m₁.Learns μ₁ →
            (s.below n'.toTy b.toTy).Answers μ₁ v' μ₁' → v' = v := by
  have hfits : s.Fits n.decl n.args :=
    ⟨⟨l, hl, .inr hlen⟩, fun a ha => by simpa using List.any_eq_false.1 hwild a ha⟩
  obtain ⟨r, m₁, hseen, -, hr, hview⟩ := seenAs_view hs hm hfits hflat ancestor
  refine ⟨r, m₁, hseen, fun n' hn' => (hview n' hn').decl, fun site nσ hnσ μ hμ => ?_, ?_⟩
  · obtain ⟨hdecl, hargs⟩ := Nominal.subst_eq hnσ
    have hfitsσ : s.Fits nσ.decl nσ.args := by
      rwa [← fits_shape, hargs, fits_rebuild, hdecl]
    obtain ⟨rσ, μ', hseenσ, -, hrσ, hviewσ⟩ := seenAs_view hs hμ hfitsσ
      (hnσ ▸ Ty.isFlat_subst hσ site hflat) ancestor
    refine ⟨rσ, μ', hseenσ, ?_⟩
    rw [hdecl, ← hr] at hrσ
    cases r with
    | none =>
      rw [hrσ.2 rfl]
      exact .none
    | some a =>
      obtain ⟨b, rfl⟩ := Option.ne_none_iff_exists'.1 fun hnone => by simpa using hrσ.1 hnone
      exact .some ((hview a rfl).subst hs hfits hσ hnσ (hviewσ b rfl))
  · rintro b rfl hb μ v μ' hμ hlearns h
    obtain ⟨hnone, hsome⟩ := below_view hs hl hlen hwild hflat hb hm hseen hr hview hμ hlearns h
    exact ⟨hnone, fun n' hn' μ₁ v' μ₁' => hsome n' hn'⟩

/-- Twins are pairs of lists and their elements, by way of swapped pairs. Twins of the very parameter of twins
are seen as pairs; after lists of the parameter were put in its place, they are seen as what is seen
before with lists put in its place. -/
theorem seenAs_subst_factors_twin :
    let s : Setting := { catalog := .extended [
      { name := "Pair", params := [{ name := "A" }, { name := "B" }] },
      { name := "Swap", params := [{ name := "A" }, { name := "B" }], parents := ["Pair<B, A>"] },
      { name := "Twin", params := [{ name := "A" }], parents := ["Swap<List<A>, A>"] }] }
    let a : Ty := .var (.declared ⟨"Twin", "A", .param 0⟩)
    let list : Ty := .nominal ⟨.given 0, [0]⟩ "List" [.type a]
    let twin : Nominal := ⟨⟨.given 1, [0]⟩, "Twin", [.type a]⟩
    let lists : Nominal := ⟨⟨.given 2, [0]⟩, "Twin", [.type list]⟩
    let pair : Nominal := ⟨⟨.given 3, [0]⟩, "Pair", [.type a, .wild list .null]⟩
    let σ := Subst.zip [⟨"Twin", "A", .param 0⟩] [list]
    (s.Lineal ∧ ((s.lineageOf twin.decl).map (·.params.length) = some twin.args.length ∧
        twin.hasWild = false ∧ twin.toTy.isFlat = true) ∧ σ.IsFlat ∧ Memory.Faithful s {}) ∧
      ∃ n' m₁, (s.seenAs twin "Pair").Answers {} (some n') m₁ ∧ n'.decl = "Pair" ∧
        (∃ nσ m₂, (s.seenAs lists "Pair").Answers {} (some nσ) m₂ ∧
          (n'.toTy.subst σ .common).equal nσ.toTy = true) ∧
        ∀ v m', (s.below twin.toTy pair.toTy).Answers {} v m' →
          ∀ v' m₁', (s.below n'.toTy pair.toTy).Answers m₁ v' m₁' → v' = v := by
  intro s a list twin lists pair σ
  have hgrown : s.catalog.Grown := Catalog.grown_extended _
  obtain ⟨horder, hcounts, hparams, hsome⟩ : s.catalog.InOrder ∧
      (∀ d ∈ s.catalog.decls, ∀ p ∈ d.parents, s.Applies p.decl p.args.length) ∧
        (s.lineageOf twin.decl).map (·.params.length) = some twin.args.length ∧
          ((s.seenAs twin "Pair").outcome {}).1.toOption.join.isSome = true := by decide +kernel
  have hs : s.Lineal := .of_grown hgrown (hgrown.acyclic horder) hcounts
  have hσ : σ.IsFlat := .zip _ (rfl : Arg.allFlat [.type list] = true)
  have hm : Memory.Faithful s {} := Memory.faithful_empty s
  obtain ⟨l, hl, hlen⟩ := Option.map_eq_some_iff.1 hparams
  obtain ⟨r, m₁, hseen, hdecl, hsubst, hbelow⟩ :=
    seenAs_subst_factors hs hl hlen.symm rfl rfl "Pair" hσ hm
  obtain ⟨n', rfl⟩ : ∃ n', r = some n' := by
    rw [show (s.seenAs twin "Pair").outcome {} = (.ok r, m₁) from hseen] at hsome
    exact Option.isSome_iff_exists.1 hsome
  obtain ⟨rσ, m₂, hseenσ, hrel⟩ := hsubst ⟨.given 2, [0]⟩ lists (by decide +kernel) {} hm
  cases hrel with
  | some hequal =>
    refine ⟨⟨hs, ⟨hparams, rfl, rfl⟩, hσ, hm⟩, n', m₁, hseen, hdecl n' rfl,
      ⟨_, m₂, hseenσ, hequal .common⟩, fun v m' h v' m₁' h' => ?_⟩
    exact (hbelow pair rfl (by simp [pair]) {} v m' hm (.refl _) h).2 n' rfl m₁ v' m₁'
      (Preserves.answers (seenAs_composed (Realm.closed_all _) twin.in_all "Pair").oblivious.faithful
        hm hseen) (.refl _) h'

end Setting
end Generics
