/-
# What an inference says

What may be concluded from the outcome of an inference, beside that its result is below the target
(`inferred_below_target`):

| outcome | conclusion |
| --- | --- |
| success | the arguments are within the bounds of the parameters (`inferred_within_bounds`) |
| success, unique | no other arguments do (`inferred_unique`) |
| failure | no arguments do (`none_of_failure`) |

The last two are about plain catalogs, and about targets in which wildcards stand only as arguments of
the target itself. For them a search has no branches, and what it asks for is needed. The failure of
a search that had to choose between bounds says nothing: another choice might have done. So every
parameter has to be told by an argument of the target.

Beyond these conditions the first two conclusions fail. A bound that is a primitive is inferred as it
stands, but is no argument (`bounds_refuted`). And where a search has branches, one that ends for lack of
information is passed over as if it had no solutions (`unique_refuted`).
-/

import Generics.Proofs.Exactness

namespace Generics

/-- Whether neither wildcards nor intersections stand in a type, except for wildcards among its own
arguments. -/
def Ty.isShallow : Ty → Bool
  | .prim _ => false
  | .nominal _ _ args => args.all fun a => a.parts.all Ty.isPlain
  | t => t.isPlain

mutual
/-- Types of the plain fragment are plain. -/
theorem Ty.Regular.isPlain {s : Setting} : ∀ {t : Ty}, t.Regular s .plain → t.isPlain = true
  | .prim _, _ => rfl
  | .null, _ => rfl
  | .nominal _ _ args, h => by
    rw [Ty.Regular] at h
    rw [Ty.isPlain]
    exact h.2.allPlain
  | .array elem, h => by
    rw [Ty.Regular] at h
    rw [Ty.isPlain]
    rcases h with h | h
    · cases elem with
      | prim _ => rfl
      | _ => cases h
    · exact h.isPlain
  | .inter _ _, h => by cases h.1
  | .var _, _ => rfl

/-- Arguments of the plain fragment are plain. -/
theorem Arg.RegularAll.allPlain {s : Setting} :
    ∀ {as : List Arg}, Arg.RegularAll s .plain as → Arg.allPlain as = true
  | [], _ => rfl
  | .type t :: as, h => by
    rw [Arg.RegularAll, Arg.Regular] at h
    rw [Arg.allPlain, Arg.isPlain, Bool.and_eq_true]
    exact ⟨h.1.isPlain, h.2.allPlain⟩
  | .wild _ _ :: _, h => by cases h.1.1
end

/-- Regular plain types without variables are simple. -/
theorem Ty.Regular.simple {s : Setting} {t : Ty} (h : t.Regular s .full) (hplain : t.isPlain = true)
    (hvars : t.vars = []) : t.Simple s [] where
  regular k := by
    cases k with
    | full => exact h
    | plain => exact h.plain hplain
  known v hv := by
    rw [hvars] at hv
    cases hv

/-- Vetted settings without wildcards and intersections in declarations are plain. -/
theorem Setting.Vetted.plain {s : Setting} (hv : s.Vetted)
    (h : ∀ t ∈ s.catalog.declaredTypes, t.isPlain = true) : s.Plain where
  regular := hv.regular_plain h
  parents k decl l hl n hn := by
    cases k with
    | full => exact (hv.regular.parents decl l hl n hn).1
    | plain => exact ((hv.regular_plain h).parents decl l hl n hn).1
  bounds k decl l hl p hp := by
    cases k with
    | full => exact (hv.regular.bounds decl l hl p hp).1
    | plain => exact ((hv.regular_plain h).bounds decl l hl p hp).1

/-- Ground types that are not primitive are regular. -/
theorem Ty.Ground.regular {s : Setting} {t : Ty} (h : t.Ground s) (hprim : t.isPrim = false) :
    t.Regular s .full :=
  h.closed.whole.resolve_left (by rw [hprim]; simp)

/-- **A closed shallow type may be asked for.** -/
theorem Ty.Ground.asked {s : Setting} {t : Ty} (h : t.Ground s) (hshallow : t.isShallow = true) :
    s.Asked [] t := by
  cases t with
  | prim _ => cases hshallow
  | nominal site decl args =>
    have hreg := h.regular rfl
    rw [Ty.Regular, Arg.regularAll_iff] at hreg
    rw [Ty.isShallow, List.all_eq_true] at hshallow
    refine .inr ⟨⟨site, decl, args⟩, rfl, fun a ha t ht => ?_⟩
    have hplain := List.all_eq_true.1 (hshallow a ha) t ht
    refine Ty.Regular.simple ?_ hplain (Setting.vars_of_parts h.vars ha ht)
    have harg := hreg.2 a ha
    cases a with
    | type u => exact List.mem_singleton.1 ht ▸ harg
    | wild u l =>
      rcases List.mem_pair.1 ht with rfl | rfl
      · exact harg.2.1
      · exact harg.2.2
  | _ => exact .inl ((h.regular rfl).simple hshallow h.vars)

namespace Inference

open Query Setting

variable {s : Setting} {m m' : Memory} {decl : String} {target : Ty}

/-! ### Bounds -/

/-- What was inferred passes the checks of the search: the target and the bounds are met. -/
theorem Inferred.Holds.checks {k : Fragment} {l : Lineage} {types : List Ty} {i : Inferred}
    (hl : s.lineageOf i.decl = some l) (h : i.Holds s k target l types) :
    s.Checks k i.decl l.params types :=
  ⟨⟨l, hl, rfl⟩, h.length.symm, fun t ht => ⟨(h.closes.regular t ht).1, h.closes.vars t ht⟩⟩

/-- **Inferred arguments are within their bounds**, if they mention no captured variable: over a vetted
catalog and for a closed target, there is one argument for each parameter, none is a primitive, and no
comparison of an argument with the bound of its parameter, all arguments put in, answers no. -/
theorem inferred_within_bounds (hv : s.Vetted) (hnames : ((s.paramsOf decl).map TypeVar.name).Nodup)
    (htarget : target.Ground s) (hm : m.Faithful s) (htame : m.Tame s .full) {i : Inferred}
    (h : (infer s target decl).Answers m i m') (hvars : i.result.toTy.vars = []) :
    ∃ types, i.result.args = types.map .type ∧ types.length = (s.paramsOf decl).length ∧
      ∀ p t, (p, t) ∈ (s.paramsOf decl).zip types → t.isPrim = false ∧
        ∀ bound m₁ m₂ r m₃, m₁.Faithful s → m₁.Tame s .full →
          (replace (Subst.zip (s.paramsOf decl) types) (s.catalog.upper p)).Answers m₁ bound m₂ →
            (s.below t bound).Answers m₂ r m₃ → r = true := by
  have hs := hv.regular
  obtain ⟨rfl, l, types, hc⟩ := infer_answers hm h
  rw [paramsOf_eq hc.lineage] at hnames ⊢
  have hclosed : ∀ t ∈ types, t.vars = [] := fun t ht =>
    vars_of_parts hvars (hc.args ▸ List.mem_map_of_mem ht) List.mem_cons_self
  have hholds := hc.holds hs hnames htarget.closed htame (fun _ => hclosed) fun hk => by cases hk
  refine ⟨types, hc.args, hholds.length.symm, fun p t hpt => ?_⟩
  obtain ⟨hp, ht⟩ := List.of_mem_zip hpt
  refine ⟨hholds.closes.prims t ht, fun bound m₁ m₂ r m₃ hm₁ ht₁ hbound hr => ?_⟩
  obtain ⟨hreplaced, hst⟩ := replace_answers hm₁ hbound
  obtain ⟨hreg, hbvars⟩ := (hholds.checks hc.lineage).bound hs hp hreplaced
  have htclosed : t.Closed s .full := ⟨.inr (hholds.closes.regular t ht).1, hclosed t ht⟩
  have hbelow := hholds.bounds p hp m₂.scope
  rw [Subst.image_of_some (Subst.lookup_zip_of_mem hholds.length (keys_nodup hnames) hpt),
    ← hreplaced.shape] at hbelow
  exact (below_decides hs _ _ _ _ (htclosed.comparable ⟨.inr hreg, hbvars⟩ m₂.scope) m₂ r m₃
    ⟨hst.faithful, .refl _, hst.keeps.tame ht₁⟩ hr).2.2 hbelow

/-- `Sorted<K extends Comparable<K>, V extends Iterable<K>>` is inferred for
`Map<String, ? extends List<String>>`, and both arguments are within their bounds, of which the second
one depends on the first argument. -/
theorem inferred_within_bounds_sorted :
    let s : Setting :=
      { catalog := .extended [{ name := "Sorted",
                                params := [⟨"K", "Comparable<K>"⟩, ⟨"V", "Iterable<K>"⟩],
                                parents := ["Map<K, V>"] }] }
    let string : Site → Ty := fun site => .nominal site "String" []
    let target : Ty := .nominal ⟨.given 0, [0]⟩ "Map" [.type (string ⟨.given 0, [4]⟩),
      .wild (.nominal ⟨.given 0, [22]⟩ "List" [.type (string ⟨.given 0, [27]⟩)]) .null]
    ∃ i m', (infer s target "Sorted").Answers {} i m' ∧
      i.result.toTy.render = "Sorted<String, List<String>>" ∧
        ∃ types, i.result.args = types.map .type ∧ ∀ p t, (p, t) ∈ (s.paramsOf "Sorted").zip types →
          ∀ bound m₁, (replace (Subst.zip (s.paramsOf "Sorted") types) (s.catalog.upper p)).Answers {}
            bound m₁ → ∀ r m₂, (s.below t bound).Answers m₁ r m₂ → r = true := by
  intro s string target
  obtain ⟨haccepts, hnames, htarget, hinfer⟩ :
      (∀ t ∈ s.catalog.declaredTypes, s.acceptsWithin 20 t = true ∧ t.sparing = true) ∧
        ((s.paramsOf "Sorted").map TypeVar.name).Nodup ∧ s.acceptsWithin 20 target = true ∧
          ((infer s target "Sorted").outcome {}).1.map (fun i => i.result.toTy.vars.isEmpty &&
            i.result.toTy.render == "Sorted<String, List<String>>") = .ok true := by decide +kernel
  obtain ⟨i, m', hinfer, hi⟩ := exists_answers hinfer
  rw [Bool.and_eq_true, List.isEmpty_iff, beq_iff_eq] at hi
  have hv : s.Vetted := .of_within (Catalog.grown_extended _) haccepts (by decide)
  obtain ⟨types, hargs, -, hbounds⟩ := inferred_within_bounds hv hnames
    ⟨rfl, rfl, .of_within htarget, .inr (by decide)⟩ (Memory.faithful_empty s)
    (Memory.tame_empty s .full) hinfer hi.1
  refine ⟨i, m', hinfer, hi.2, types, hargs, fun p t hpt bound m₁ hbound r m₂ hr => ?_⟩
  exact (hbounds p t hpt).2 bound {} m₁ r m₂ (Memory.faithful_empty s) (Memory.tame_empty s .full)
    hbound hr

/-- With `P<N extends int>`, the bound itself is inferred, and the check refuses it. -/
theorem bounds_refuted :
    let s : Setting := { catalog := .extended [{ name := "P", params := [⟨"N", "int"⟩] }] }
    ((infer s .object "P").outcome {}).1.map (fun i => i.result.args) = .ok [.type (.prim ⟨5⟩)] ∧
      ((infer s .object "P" >>= fun i => i.result.toTy.check s).outcome {}).1.mapError
        Failure.kind? = .error (some .malformed) := by
  decide +kernel

/-! ### Other arguments -/

/-- Plain arguments without variables, one for each parameter, with which a declaration is well-formed
and below a target. -/
structure Suits (s : Setting) (target : Ty) (n : Nominal) : Prop where
  ground : n.toTy.Ground s
  plain : n.toTy.isPlain = true
  length : n.args.length = (s.paramsOf n.decl).length
  below : s.Confirms n.toTy target

/-- Suitable arguments are an instance of the declaration for the target. -/
theorem Suits.inst (hs : s.Regular .full) (hplain : s.Regular .plain) {n : Nominal} {l : Lineage}
    (h : Suits s target n) (hl : s.lineageOf n.decl = some l) (htarget : target.Ground s) :
    Instance s n.decl l target (n.args.filterMap Arg.type?) := by
  have hreg : n.toTy.Regular s .full := h.ground.regular rfl
  refine .of_confirms hs hplain hl (paramsOf_eq hl ▸ h.length) ?_ h.ground.vars h.ground.accepted
    h.below htarget.closed
  exact (hreg.simple h.plain h.ground.vars).regular

/-- Suitable arguments are an instance of the declaration whose parameters are known. -/
theorem Suits.exists_inst (hs : s.Regular .full) (hplain : s.Regular .plain) {n : Nominal}
    (h : Suits s target n) (hn : n.decl = decl) (htarget : target.Ground s) :
    ∃ l, s.lineageOf decl = some l ∧ Instance s decl l target (n.args.filterMap Arg.type?) := by
  obtain ⟨l, hl, -⟩ : s.Applies n.decl n.args.length := by
    have hreg := h.ground.regular rfl
    rw [Nominal.toTy, Ty.Regular] at hreg
    exact hreg.1
  exact hn ▸ ⟨l, hl, h.inst hs hplain hl htarget⟩

/-- Suitable arguments are types, all of them. -/
theorem Suits.args {n : Nominal} (h : Suits s target n) :
    (n.args.filterMap Arg.type?).map .type = n.args :=
  Arg.map_types (Ty.Regular.not_wild ((h.ground.regular rfl).plain h.plain))

/-- **Unique arguments are the only ones.** Over a plain vetted catalog, and for a closed shallow
target, if an inference says that its arguments are unique, then all plain arguments that do are
equivalent to them, one by one. -/
theorem inferred_unique (hv : s.Vetted) (hacyc : s.Acyclic)
    (hdecls : ∀ t ∈ s.catalog.declaredTypes, t.isPlain = true)
    (hnames : ((s.paramsOf decl).map TypeVar.name).Nodup) (htarget : target.Ground s)
    (hshallow : target.isShallow = true) (hm : m.Faithful s) (htame : m.Tame s .full) {i : Inferred}
    (h : (infer s target decl).Answers m i m') (hunique : i.unique = true) {n : Nominal}
    (hn : n.decl = decl) (hsuits : Suits s target n) :
    ∃ types others, i.result.args = types.map .type ∧ n.args = others.map .type ∧
      List.Forall₂ (fun t u => ∀ m, (s.equivalent t u).Answers m true m) types others := by
  have hs := hv.regular
  have hplain := hv.plain hdecls
  obtain ⟨rfl, l, types, hc⟩ := infer_answers hm h
  obtain ⟨site, m₁, m₂, o, hst, hsearch, hsol, hambiguous, -⟩ := hc.found
  rw [hunique, eq_comm, Bool.not_eq_true'] at hambiguous
  rw [paramsOf_eq hc.lineage] at hnames
  have hstands := stands_infer hs hc.lineage hnames htarget.closed.whole htarget.vars hst.faithful
    (hst.keeps.tame htame) site
  have hsimple := simple_infer hplain hc.lineage (htarget.asked hshallow) site
  have hinst := hsuits.inst hs hplain.regular (hn ▸ hc.lineage) htarget
  rw [hn] at hinst
  have hshapes := searchWithin_met hs hplain hacyc hinst.filling hstands hsimple
    (hinst.met hnames htarget.vars site (Memory.scope {})) hsearch hsol hambiguous
  rw [Subst.image_zip hinst.length (keys_nodup hnames)] at hshapes
  have hfound := ((searchWithin_simple hs hplain hstands hsimple hsearch).2 types hsol).1
  refine ⟨types, n.args.filterMap Arg.type?, hc.args, hsuits.args.symm, ?_⟩
  have hequal := equal_types (fun t ht => ((hfound t ht).regular .plain).isPlain) hshapes
  refine hequal.imp fun t u htu m => ?_
  rw [equivalent, equivalentBy, if_pos htu]
  exact answers_pure.2 ⟨rfl, rfl⟩

/-- The arguments of `HashMap` that are inferred for `Map<String, List<Integer>>` are unique, and so they
are what anyone would write. -/
theorem inferred_unique_standard :
    let s : Setting := { catalog := .standard }
    let written : Nat → String → Nominal := fun i decl => ⟨⟨.given i, [0]⟩, decl,
      [.type (.nominal ⟨.given i, [decl.length + 1]⟩ "String" []),
        .type (.nominal ⟨.given i, [decl.length + 9]⟩ "List"
          [.type (.nominal ⟨.given i, [decl.length + 14]⟩ "Integer" [])])]⟩
    ∃ i m', (infer s (written 0 "Map").toTy "HashMap").Answers {} i m' ∧ i.unique = true ∧
      ∃ types others, i.result.args = types.map .type ∧
        (written 1 "HashMap").args = others.map .type ∧
          List.Forall₂ (fun t u => ∀ m, (s.equivalent t u).Answers m true m) types others := by
  intro s written
  obtain ⟨hdecls, hnames, hshallow, hplain, hlength, hwritten, hinfer, hbelow⟩ :
      (∀ t ∈ s.catalog.declaredTypes, t.isPlain = true) ∧
        ((s.paramsOf "HashMap").map TypeVar.name).Nodup ∧
        (written 0 "Map").toTy.isShallow = true ∧ (written 1 "HashMap").toTy.isPlain = true ∧
          (written 1 "HashMap").args.length = (s.paramsOf "HashMap").length ∧
            (∀ t ∈ [(written 0 "Map").toTy, (written 1 "HashMap").toTy], t.vars = [] ∧
              t.isFlat = true ∧ s.acceptsWithin 20 t = true ∧ t.sparing = true) ∧
                ((infer s (written 0 "Map").toTy "HashMap").outcome {}).1.map Inferred.unique =
                  .ok true ∧
                  (((s.withDepth 20).below (written 1 "HashMap").toTy (written 0 "Map").toTy).outcome
                    {}).1.map id = .ok true := by decide +kernel
  obtain ⟨i, m', hinfer, hunique⟩ := exists_answers hinfer
  obtain ⟨r, m'', hbelow, rfl⟩ := exists_answers hbelow
  have hground : ∀ t ∈ [(written 0 "Map").toTy, (written 1 "HashMap").toTy], t.Ground s := by
    intro t ht
    obtain ⟨hvars, hflat, haccepts, hsparing⟩ := hwritten t ht
    exact ⟨hvars, hflat, .of_within haccepts, .inr hsparing⟩
  have hsuits : Suits s (written 0 "Map").toTy (written 1 "HashMap") :=
    ⟨hground _ (by simp), hplain, hlength, 20, m'', hbelow⟩
  have hsame := inferred_unique vetted_standard acyclic_standard hdecls hnames (hground _ (by simp))
    hshallow (Memory.faithful_empty s) (Memory.tame_empty s .full) hinfer hunique rfl hsuits
  exact ⟨i, m', hinfer, hunique, hsame⟩

/-- For `G<T extends Comparable<T>>` below `Iterable<Set<? extends List<T>>>`, and the target
`Iterable<? super (Set<List<Integer>> & Set<Null>)>`, `Integer` is inferred as the only argument. But the
second member of the intersection asks nothing of `T`, and with `String` the target is met as well. -/
theorem unique_refuted :
    let s : Setting :=
      { catalog := .extended [{ name := "G", params := [⟨"T", "Comparable<T>"⟩],
                                parents := ["Iterable<Set<? extends List<T>>>"] }] }
    let integer : Ty := .nominal ⟨.given 0, [27]⟩ "Integer" []
    let string : Ty := .nominal ⟨.given 1, [2]⟩ "String" []
    let target : Ty := .nominal ⟨.given 0, [0]⟩ "Iterable" [.wild .object (.inter ⟨.given 0, [17]⟩
      [.nominal ⟨.given 0, [18]⟩ "Set" [.type (.nominal ⟨.given 0, [22]⟩ "List" [.type integer])],
        .nominal ⟨.given 0, [39]⟩ "Set" [.type .null]])]
    let other : Ty := .nominal ⟨.given 1, [0]⟩ "G" [.type string]
    ((target.check s).outcome {}).1 = .ok () ∧
      ((infer s target "G").outcome {}).1.map (fun i => (i.result.args, i.unique)) =
        .ok ([.type integer], true) ∧
        ((other.check s).outcome {}).1 = .ok () ∧ ((s.below other target).outcome {}).1 = .ok true ∧
          ((s.equivalent string integer).outcome {}).1 = .ok false := by
  decide +kernel

/-! ### No arguments -/

/-- A target tells of a variable if an argument in it exposes the variable. -/
theorem tells_of_supertypeAs (hplain : s.Plain) {l : Lineage} (hl : s.lineageOf decl = some l)
    {target : Nominal} (hne : target.decl ≠ objectName) {site : Site} {seen : Nominal}
    (hm : m.Faithful s)
    (h : (s.supertypeAs ⟨site, decl, ownArgs l.params⟩ target.decl).Answers m (some seen) m') {v : Var}
    {t u : Ty} (htu : (Arg.type t, Arg.type u) ∈ seen.args.zip target.args) (hexp : t.Exposes v) :
    s.Tells v decl (ownArgs l.params) target := by
  intro found hfound
  have hseen := supertypeAs_seen (n := ⟨site, decl, ownArgs l.params⟩) hplain.regular hm
    (regular_own hl site .plain) hne h
  rw [shape_own] at hseen
  refine ⟨t.shape, u.shape, ?_, hexp.rebuild .var⟩
  rw [hfound.unique hseen, List.zip_map]
  exact List.mem_map_of_mem htu

/-- **Failing means that there are no arguments**, where the target tells all of them. Over a plain
vetted catalog, and for a closed shallow target, let each parameter stand where the target has a type
as argument. Then if an inference fails, though not for having run away, no plain arguments other than
`Null` make the declaration well-formed and below the target. -/
theorem none_of_failure (hv : s.Vetted) (hacyc : s.Acyclic)
    (hdecls : ∀ t ∈ s.catalog.declaredTypes, t.isPlain = true)
    (hnames : ((s.paramsOf decl).map TypeVar.name).Nodup) {target : Nominal}
    (htarget : target.toTy.Ground s) (hshallow : target.toTy.isShallow = true)
    (hargs : target.args ≠ []) {site : Site} {seen : Nominal} {m₀ : Memory}
    (hseen : (s.supertypeAs ⟨site, decl, ownArgs (s.paramsOf decl)⟩ target.decl).Answers {} (some seen)
      m₀)
    (htold : ∀ p ∈ s.paramsOf decl, ∃ t u, (Arg.type t, Arg.type u) ∈ seen.args.zip target.args ∧
      t.Exposes (.declared p))
    (hm : m.Faithful s) (htame : m.Tame s .full) {f : Failure}
    (hfail : ((infer s target.toTy decl).outcome m).1 = .error f) (hkind : f.kind? ≠ some .runaway)
    {n : Nominal} (hn : n.decl = decl) (hnull : .type .null ∉ n.args) : ¬ Suits s target.toTy n := by
  intro hsuits
  have hs := hv.regular
  have hplain := hv.plain hdecls
  obtain ⟨l, hl, hinst⟩ := hsuits.exists_inst hs hplain.regular hn htarget
  rw [paramsOf_eq hl] at hnames hseen htold
  have hne := ne_object hs (htarget.regular rfl) hargs
  obtain ⟨site', m₁, hst, houtcome⟩ := infer_outcome hl hm target.toTy
  have htells : ∀ p ∈ l.params, s.Tells (.declared p) decl (ownArgs l.params) target := by
    intro p hp
    obtain ⟨t, u, htu, hexp⟩ := htold p hp
    exact tells_of_supertypeAs hplain hl hne (Memory.faithful_empty s) hseen htu hexp
  obtain ⟨⟨o, e⟩, m₂, hsearch, hends⟩ := search_told hs hplain hacyc hl hnames
    (htarget.asked hshallow) htarget.closed hargs htells hst.faithful (hst.keeps.tame htame) hinst
    (fun hmem => hnull (mem_types hmem)) site'
  rw [houtcome, hsearch] at hfail
  rcases hends with ⟨hrunaway, hnone⟩ | ⟨hsome, -⟩
  · have hkinds : ∀ g, (concluded target.toTy decl (.ok (o, e), m₂)).1 = .error g →
        g.kind? ≠ some .runaway := by
      intro g hg
      rw [hfail, Except.error.injEq] at hg
      exact hg ▸ hkind
    rw [Outcome.not_runaway_of_concluded hnone hkinds] at hrunaway
    cases hrunaway
  · obtain ⟨i, hi⟩ := (concluded_answers target.toTy decl o e m₂).2 hsome
    rw [hi] at hfail
    cases hfail

end Inference
end Generics
