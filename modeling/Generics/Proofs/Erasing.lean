/-
# What raw declarations are seen as

A raw declaration leaves out its arguments, and what it is seen as at a direct supertype is raw too. At
each declaration on the way up it is decided anew whether that is raw, from its own arguments and
parameters. So a declaration without parameters is not raw when the way comes by, and it goes on to its
supertypes with the arguments that are listed for them.

Hence an ancestor is seen raw exactly if no declaration without parameters lies on the way from which it
is reached by supertypes that are listed with arguments (`Setting.supertypeAs_raw`). Where a raw `A`
extends `B`, and `B` without parameters extends `List<String>`, the list is seen with its argument
(`Setting.supertypeAs_raw_refuted`).
-/

import Generics.Proofs.Climbing

namespace Generics

namespace Setting

open Query

variable {s : Setting} {m : Memory} {ancestor decl next : String} {args found : List Arg}

/-- On the way up to an ancestor the second declaration comes after the first one, which lists it with
arguments. -/
def HeadsApplied (s : Setting) (ancestor decl next : String) : Prop :=
  decl ≠ ancestor ∧ ∃ parent, Settles s (s.leadsTo? decl ancestor) (.ok (some parent)) ∧
    parent.decl = next ∧ parent.args ≠ []

/-- On the way up to the ancestor there is a declaration without parameters, and from there on all
supertypes are listed with arguments. -/
def Regains (s : Setting) (ancestor decl : String) : Prop :=
  ∃ e, Relation.ReflTransGen (s.Heads ancestor) decl e ∧ s.paramsOf e = [] ∧
    Relation.TransGen (s.HeadsApplied ancestor) e ancestor

section Steps

variable {parent : Nominal} (hne : decl ≠ ancestor)
  (hlead : Settles s (s.leadsTo? decl ancestor) (.ok (some parent)))
include hne hlead

/-- Where one parent leads up, the way goes on to it with arguments if it is listed with some. -/
theorem headsApplied_iff : s.HeadsApplied ancestor decl next ↔ next = parent.decl ∧ parent.args ≠ [] := by
  constructor
  · rintro ⟨-, parent', hlead', rfl, hargs⟩
    have := hlead.unique hlead'
    injection this with this
    injection this with this
    exact ⟨congrArg Nominal.decl this.symm, this ▸ hargs⟩
  · rintro ⟨rfl, hargs⟩
    exact ⟨hne, parent, hlead, rfl, hargs⟩

/-- Where one parent leads up, the way goes on to it. -/
theorem heads_iff (hk : s.ParentsKnown) : s.Heads ancestor decl next ↔ next = parent.decl := by
  have hheads := heads_of_leadsTo? hk hne hlead
  exact ⟨fun h => h.unique hheads, fun h => h ▸ hheads⟩

/-- All heads are applied if the parent is listed with arguments and all heads from there are. -/
theorem headsApplied_transGen : Relation.TransGen (s.HeadsApplied ancestor) decl ancestor ↔
    parent.args ≠ [] ∧ Relation.ReflTransGen (s.HeadsApplied ancestor) parent.decl ancestor := by
  rw [Relation.TransGen.head'_iff]
  simp only [headsApplied_iff hne hlead]
  exact ⟨fun ⟨_, ⟨rfl, hargs⟩, hrest⟩ => ⟨hargs, hrest⟩, fun ⟨hargs, hrest⟩ => ⟨_, ⟨rfl, hargs⟩, hrest⟩⟩

omit hne hlead in
/-- Arguments are passed on if there are some, or if there are no parameters to leave out. -/
theorem inherited_ne_nil : s.inherited decl args parent ≠ [] ↔
    (args ≠ [] ∨ s.paramsOf decl = []) ∧ parent.args ≠ [] := by
  rw [inherited]
  split
  · next hraw => simp [hraw]
  · next hraw =>
    have hlit : args ≠ [] ∨ s.paramsOf decl = [] := by
      by_cases hargs : args = []
      · exact .inr (Classical.byContradiction fun hparams => hraw ⟨hargs, hparams⟩)
      · exact .inl hargs
    simp [hlit]

/-- Arguments are regained here, where there are no parameters, or further up. -/
theorem regains_iff (hk : s.ParentsKnown) : s.Regains ancestor decl ↔
    (s.paramsOf decl = [] ∧ Relation.TransGen (s.HeadsApplied ancestor) decl ancestor) ∨
      s.Regains ancestor parent.decl := by
  have hheads := (heads_iff hne hlead hk).2 rfl
  constructor
  · rintro ⟨e, hway, he, happlied⟩
    rcases hway.cases_head with rfl | ⟨x, hx, hway⟩
    · exact .inl ⟨he, happlied⟩
    · rw [(heads_iff hne hlead hk).1 hx] at hway
      exact .inr ⟨e, hway, he, happlied⟩
  · rintro (⟨hparams, happlied⟩ | ⟨e, hway, he, happlied⟩)
    · exact ⟨decl, .refl, hparams, happlied⟩
    · exact ⟨e, .head hheads hway, he, happlied⟩

end Steps

/-- **When there are arguments at the ancestor**: they are passed on from the declaration all the way, or
they come in at a declaration without parameters. -/
theorem SeenAs.found_ne_nil (hk : s.ParentsKnown) (h : s.SeenAs ancestor decl args found) :
    found ≠ [] ↔ (args ≠ [] ∧ Relation.ReflTransGen (s.HeadsApplied ancestor) decl ancestor) ∨
      s.Regains ancestor decl := by
  induction h with
  | here args =>
    have hend : ∀ {x}, ¬ Relation.TransGen (s.HeadsApplied ancestor) ancestor x := fun h => by
      obtain ⟨_, hstep, -⟩ := Relation.TransGen.head'_iff.1 h
      exact hstep.1 rfl
    constructor
    · exact fun hargs => .inl ⟨hargs, .refl⟩
    · rintro (⟨hargs, -⟩ | ⟨e, hway, -, happlied⟩)
      · exact hargs
      · rcases hway.cases_head with rfl | ⟨x, hx, -⟩
        · exact absurd happlied hend
        · exact absurd rfl hx.1
  | @up decl args found parent hne hlead _ ih =>
    have happlied : Relation.ReflTransGen (s.HeadsApplied ancestor) decl ancestor ↔
        Relation.TransGen (s.HeadsApplied ancestor) decl ancestor := by
      rw [Relation.reflTransGen_iff_eq_or_transGen, or_iff_right (Ne.symm hne)]
    rw [ih, inherited_ne_nil, regains_iff hne hlead hk, happlied,
      headsApplied_transGen hne hlead]
    tauto

/-! ### Raw declarations -/

/-- A declaration with parameters is known. -/
theorem exists_lineage {e : String} (h : s.paramsOf e ≠ []) : ∃ l, s.lineageOf e = some l :=
  Option.ne_none_iff_exists'.1 fun hnone => h (by rw [paramsOf, hnone]; rfl)

/-- A raw declaration has no wildcards to capture. -/
theorem supertypeAs_nil (site : Site) (hne : ancestor ≠ objectName) :
    s.supertypeAs ⟨site, decl, []⟩ ancestor =
      s.climb ancestor (s.catalog.decls.length + 1) ⟨site, decl, []⟩ := by
  have hcapture : s.capture ⟨site, decl, []⟩ = pure ⟨site, decl, []⟩ := rfl
  rw [supertypeAs, hcapture, pure_bind, seenAs, if_neg hne]

/-- The declaration is raw, and those on the way up to the ancestor are generic. -/
structure StaysRaw (s : Setting) (ancestor : String) (n : Nominal) : Prop where
  args : n.args = []
  generic : ∀ e, Relation.ReflTransGen (s.Heads ancestor) n.decl e → s.paramsOf e ≠ []

/-- A declaration that stays raw can be applied to what it has. -/
theorem StaysRaw.fits {n : Nominal} (h : s.StaysRaw ancestor n) : s.Fits n.decl n.args := by
  obtain ⟨l, hl⟩ := exists_lineage (h.generic _ .refl)
  exact h.args ▸ fits_nil hl

/-- What is raw stays raw where the next declaration is. -/
theorem StaysRaw.step (hk : s.ParentsKnown) {parent n n' : Nominal} (h : s.StaysRaw ancestor n)
    (hne : n.decl ≠ ancestor) (hlead : Settles s (s.leadsTo? n.decl ancestor) (.ok (some parent)))
    (hbecomes : s.Becomes parent n n') : n' = .raw parent.decl ∧ s.StaysRaw ancestor n' := by
  cases hbecomes with
  | raw =>
    exact ⟨rfl, rfl, fun e he => h.generic e (.head (heads_of_leadsTo? hk hne hlead) he)⟩
  | plain _ hnil => exact absurd hnil (h.generic _ .refl)
  | applied _ hargs => exact absurd h.args hargs

/-- **What a raw declaration is seen as**, in a registry without cycles in inheritance. An ancestor with
parameters is seen raw exactly if on the way there is no declaration without parameters from which it is
reached by supertypes that are listed with arguments. It is seen, one way or the other, if supertypes
have the right numbers of arguments; and it is seen raw in any case if all declarations on the way have
parameters. -/
theorem supertypeAs_raw (hc : s.catalog.Grown) (hacyc : s.Acyclic) (hdecl : s.paramsOf decl ≠ [])
    (hancestor : s.paramsOf ancestor ≠ []) (hup : Relation.TransGen s.Parent decl ancestor) (site : Site)
    (hm : m.Faithful s) :
    (∀ r m', (s.supertypeAs ⟨site, decl, []⟩ ancestor).Answers m r m' → ∃ n, r = some n ∧
        n.decl = ancestor ∧ (n.args = [] ↔ ¬ s.Regains ancestor decl)) ∧
      ((∀ d ∈ s.catalog.decls, ∀ p ∈ d.parents, s.Applies p.decl p.args.length) →
        ∃ r m', (s.supertypeAs ⟨site, decl, []⟩ ancestor).Answers m r m') ∧
      ((∀ e, Relation.ReflTransGen (s.Heads ancestor) decl e → s.paramsOf e ≠ []) →
        ∃ m', (s.supertypeAs ⟨site, decl, []⟩ ancestor).Answers m (some (.raw ancestor)) m') := by
  have hself := hc.declared.selfContained
  have hk := hself.parentsKnown
  obtain ⟨l, hl⟩ := exists_lineage hdecl
  have hobject : ancestor ≠ objectName := by
    rintro rfl
    exact hancestor (paramsOf_eq (show s.lineageOf objectName = _ from hc.plainObject))
  have hne : decl ≠ ancestor := by
    rintro rfl
    exact hacyc decl hup
  rw [supertypeAs_nil site hobject]
  refine ⟨fun r m' h => ?_, fun hcounts => ?_, fun hgeneric => ?_⟩
  · obtain ⟨n, rfl⟩ := climb_some hk hm hup.to_reflTransGen h
    obtain ⟨-, -, hsome⟩ := climb_keeps (P := fun _ => True) (fun _ _ _ _ => trivial) hm trivial h
    obtain ⟨hn, -, hseen⟩ := hsome n rfl
    have hfound := hseen.found_ne_nil hk
    rw [List.map_nil, or_iff_right (by simp), Ne, List.map_eq_nil_iff] at hfound
    exact ⟨n, rfl, hn, not_not.symm.trans (not_congr hfound)⟩
  · exact climb_total (parentsFit_of_counts hself hcounts) ancestor hm (fits_nil hl) fun d _ =>
      hacyc.way ancestor d
  -- past the first step, what is passed on is the raw declaration itself
  · have hstep : ∀ {n parent n' : Nominal}, s.StaysRaw ancestor n ∧ (n.decl = ancestor → n = .raw ancestor) →
        n.decl ≠ ancestor → Settles s (s.leadsTo? n.decl ancestor) (.ok (some parent)) →
          s.Becomes parent n n' → s.StaysRaw ancestor n' ∧ (n'.decl = ancestor → n' = .raw ancestor) := by
      intro n parent n' h hn hlead hbecomes
      obtain ⟨rfl, hraw⟩ := h.1.step hk hn hlead hbecomes
      exact ⟨hraw, congrArg Nominal.raw⟩
    have hstart : s.StaysRaw ancestor ⟨site, decl, []⟩ ∧
        (decl = ancestor → (⟨site, decl, []⟩ : Nominal) = .raw ancestor) :=
      ⟨⟨rfl, hgeneric⟩, fun h => absurd h hne⟩
    obtain ⟨r, m', h⟩ := climb_total_keeping hk (fun h => h.1.fits) hstep hm hstart fun d _ =>
      hacyc.way ancestor d
    obtain ⟨n, rfl⟩ := climb_some hk hm hup.to_reflTransGen h
    obtain ⟨-, -, hsome⟩ := climb_keeps hstep hm hstart h
    obtain ⟨hn, ⟨-, hraw⟩, -⟩ := hsome n rfl
    exact ⟨m', hraw hn ▸ h⟩

end Setting

/-- Beside the standard declarations: `Column<T>` is a `Collection<T>`, `Words` is a `List<String>`, and
`Index<K>` is `Words`. -/
def Catalog.indexed : Catalog := .extended [
  { name := "Column", params := [⟨"T", ""⟩], parents := ["Collection<T>"] },
  { name := "Words", parents := ["List<String>"] },
  { name := "Index", params := [⟨"K", ""⟩], parents := ["Words"] }]

namespace Setting

open Query

/-- A raw column is seen as the raw `Iterable`. -/
theorem supertypeAs_raw_column :
    let s : Setting := { catalog := .indexed }
    (s.catalog.Grown ∧ s.Acyclic ∧ s.paramsOf "Column" ≠ [] ∧ s.paramsOf "Iterable" ≠ [] ∧
        Relation.TransGen s.Parent "Column" "Iterable" ∧ Memory.Faithful s {} ∧
        (∀ d ∈ s.catalog.decls, ∀ p ∈ d.parents, s.Applies p.decl p.args.length) ∧
        ∀ e, Relation.ReflTransGen (s.Heads "Iterable") "Column" e → s.paramsOf e ≠ []) ∧
      ¬ s.Regains "Iterable" "Column" ∧
        ∃ m', (s.supertypeAs (.raw "Column") "Iterable").Answers {} (some (.raw "Iterable")) m' := by
  intro s
  have hc : s.catalog.Grown := Catalog.grown_extended _
  obtain ⟨horder, hcounts, hparams, hfirst, hsecond⟩ : s.catalog.InOrder ∧
      (∀ d ∈ s.catalog.decls, ∀ p ∈ d.parents, s.Applies p.decl p.args.length) ∧
      (∀ e ∈ ["Column", "Collection", "Iterable"], s.paramsOf e ≠ []) ∧
      s.headOf "Iterable" "Column" = some "Collection" ∧
      s.headOf "Iterable" "Collection" = some "Iterable" := by decide +kernel
  have hk := hc.declared.selfContained.parentsKnown
  have hfirst : s.Heads "Iterable" "Column" "Collection" := heads_of_headOf hk (by decide) hfirst
  have hsecond : s.Heads "Iterable" "Collection" "Iterable" := heads_of_headOf hk (by decide) hsecond
  have hway : ∀ e, Relation.ReflTransGen (s.Heads "Iterable") "Column" e →
      e ∈ ["Column", "Collection", "Iterable"] := by
    intro e he
    induction he with
    | refl => simp
    | tail _ hstep ih =>
      simp only [List.mem_cons, List.not_mem_nil, or_false] at ih ⊢
      rcases ih with rfl | rfl | rfl
      · exact .inr (.inl (hstep.unique hfirst))
      · exact .inr (.inr (hstep.unique hsecond))
      · exact absurd rfl hstep.1
  have hgeneric := fun e he => hparams e (hway e he)
  have hup : Relation.TransGen s.Parent "Column" "Iterable" := .head hfirst.parent (.single hsecond.parent)
  have hm : Memory.Faithful s {} := Memory.faithful_empty s
  have hacyc := hc.acyclic horder
  refine ⟨⟨hc, hacyc, hparams _ (by simp), hparams _ (by simp), hup, hm, hcounts, hgeneric⟩, ?_⟩
  obtain ⟨hregains, -, hraw⟩ :=
    supertypeAs_raw hc hacyc (hparams _ (by simp)) (hparams _ (by simp)) hup .common hm
  obtain ⟨m', h⟩ := hraw hgeneric
  obtain ⟨n, hn, -, hiff⟩ := hregains _ m' h
  cases hn
  exact ⟨hiff.1 rfl, m', h⟩

/-- **A raw index is seen as `List<String>`**, by way of `Words`. -/
theorem supertypeAs_raw_refuted :
    let s : Setting := { catalog := .indexed }
    s.catalog.Grown ∧ s.Acyclic ∧ s.paramsOf "Index" ≠ [] ∧ s.paramsOf "List" ≠ [] ∧
      Settles s (s.inherits "Index" "List") (.ok true) ∧
      ∃ n m', (s.supertypeAs (.raw "Index") "List").Answers {} (some n) m' ∧ n.decl = "List" ∧
        n.args ≠ [] := by
  intro s
  have hc : s.catalog.Grown := Catalog.grown_extended _
  obtain ⟨horder, hindex, hlist, hinherits, hseen⟩ : s.catalog.InOrder ∧ s.paramsOf "Index" ≠ [] ∧
      s.paramsOf "List" ≠ [] ∧ ((s.inherits "Index" "List").outcome {}).1 = .ok true ∧
      ((s.supertypeAs (.raw "Index") "List").outcome {}).1.map
        (fun r => r.any fun n => n.decl = "List" && !n.args.isEmpty) = .ok true := by decide +kernel
  obtain ⟨v, hv⟩ := inherits_steady s "Index" "List"
  rw [(hv {} (Memory.faithful_empty s)).1] at hinherits
  refine ⟨hc, hc.acyclic horder, hindex, hlist, hinherits ▸ hv, ?_⟩
  obtain ⟨r, m', h, hr⟩ := exists_answers hseen
  cases r with
  | none => cases hr
  | some n =>
    rw [Option.any_some, Bool.and_eq_true, decide_eq_true_eq, Bool.not_eq_true',
      List.isEmpty_eq_false_iff] at hr
    exact ⟨n, m', h, hr⟩

end Setting
end Generics
