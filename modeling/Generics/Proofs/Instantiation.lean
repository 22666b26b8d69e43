/-
# Subtyping of instances

If a type over the parameters of a declaration is below another one, this stays so when the
parameters are given types within their bounds (`Setting.below_subst`). The comparison of the types
over the parameters may have gone through bounds; for the instance, each step from a parameter to its
bound is the step from the given type to the instance of the bound, and steps can be put together
(`Beneath.rebuild`).
-/

import Generics.Proofs.Ordering

namespace Generics
namespace Setting

open Query Inference

variable {s : Setting} {ps : List TypeVar} {a b : Ty}

/-- **What is beneath a type stays so when variables are given types beneath their bounds.** -/
theorem Beneath.rebuild (hs : s.Hierarchy) (hps : s.Bounded ps) {f : Var → Ty} (hf : Siteless f)
    (happ : ∀ p ∈ ps, (f (.declared p)).Applied s [])
    (hbound : ∀ p ∈ ps, s.Beneath (f (.declared p)) ((s.catalog.upper p).rebuild f))
    (h : s.Beneath a b) (ha : a.Applied s ps) : s.Beneath (a.rebuild f) (b.rebuild f) := by
  induction h with
  | refl v =>
    cases ha with
    | @var p hp =>
      have hself := Beneath.self (happ p hp)
      rwa [hf] at hself
  | @bound v b _ ih =>
    cases ha with
    | var hv =>
      have hupper := ih (hps.applied v hv).shape
      rw [Ty.rebuild_shape] at hupper
      exact (hbound v hv).trans hs.object hupper
  | object d as =>
    rw [Ty.rebuild_nominal]
    exact .object d _
  | way hway =>
    rw [Ty.rebuild_nominal, Ty.rebuild_nominal]
    have hreg := ha.regular
    rw [Ty.Regular] at hreg
    exact .way (hway.rebuild hs.parentsRegular hf ⟨hreg.1, ha.regular.not_wild⟩)

/-- **Instances of types are ordered like the types.** Where `a` is below `b` over the parameters of a
declaration, their instances are, if each parameter is given a type below the instance of its
bound. -/
theorem below_subst (hs : s.Hierarchy) {decl : String} {l : Lineage}
    (hbounds : ∀ decl l, s.lineageOf decl = some l → s.Bounded l.params)
    (hl : s.lineageOf decl = some l) {us : List Ty}
    (hlen : l.params.length = us.length) (hus : ∀ u ∈ us, u.Applied s [])
    (hfit : ∀ x ∈ l.params.zip us, ∃ site, s.Affirms fun s =>
      s.below x.2 ((s.catalog.upper x.1).subst (Subst.zip l.params us) site))
    (ha : a.Applied s l.params) (hb : b.Applied s l.params) {n : Nat} {m m' : Memory}
    (hm : m.Faithful s) (h : ((s.withDepth n).below a b).Answers m true m') (left right : Site) :
    s.Affirms fun s =>
      s.below (a.subst (Subst.zip l.params us) left) (b.subst (Subst.zip l.params us) right) := by
  have hbounds := hbounds decl l hl
  have himage : ∀ p ∈ l.params, ((Subst.zip l.params us).image (.declared p)).Applied s [] := by
    intro p hp
    obtain ⟨u, hu, heq⟩ := image_zip_cases hp (Nat.le_of_eq hlen)
    exact heq ▸ (hus u hu).shape
  have happ : ∀ t : Ty, t.Applied s l.params → ∀ site,
      (t.subst (Subst.zip l.params us) site).Applied s [] := by
    intro t ht site
    refine .of_shape ?_
    rw [Ty.shape_subst]
    exact ht.rebuild himage
  have hbound : ∀ p ∈ l.params, s.Beneath ((Subst.zip l.params us).image (.declared p))
      ((s.catalog.upper p).rebuild (Subst.zip l.params us).image) := by
    intro p hp
    obtain ⟨u, hu⟩ := Option.isSome_iff_exists.1
      (Subst.lookup_zip_isSome (Nat.le_of_eq hlen) hp)
    obtain ⟨q, hmem, hkey⟩ := Subst.mem_zip_of_lookup hu
    obtain rfl := List.inj_on_of_nodup_map hbounds.keys (List.of_mem_zip hmem).1 hp hkey
    obtain ⟨site, haffirms⟩ := hfit _ hmem
    have hbeneath := (affirms_iff hs (hus u (List.of_mem_zip hmem).2)
      (happ _ (hbounds.applied q hp) site)).1 haffirms
    rw [Ty.shape_subst] at hbeneath
    rw [Subst.image, hu]
    exact hbeneath
  rw [below_withDepth] at h
  have hbeneath := (belowWithin_decides_beneath hs hbounds n ha hb (.nil s l.params a) m true m' hm
    h).2.1 rfl
  rw [affirms_iff hs (happ a ha left) (happ b hb right), Ty.shape_subst, Ty.shape_subst,
    ← Ty.rebuild_shape _ a, ← Ty.rebuild_shape _ b]
  exact hbeneath.rebuild hs hbounds (Subst.siteless_image _) himage hbound ha.shape

/-- In `Chain<T extends Comparable<T>, U extends T>` the parameter `U` is below `Comparable<T>` by two
bounds, and so are the instances for `Chain<Integer, Integer>`. -/
theorem below_subst_chain :
    let chain : Definition := { name := "Chain", params := [⟨"T", "Comparable<T>"⟩, ⟨"U", "T"⟩] }
    let s : Setting := { catalog := .extended [chain] }
    let t : TypeVar := ⟨"Chain", "T", .param 0⟩
    let u : TypeVar := ⟨"Chain", "U", .param 1⟩
    let integer : Nat → Ty := fun i => .nominal ⟨.given i, []⟩ "Integer" []
    let comparable : Ty := .nominal ⟨.given 2, []⟩ "Comparable" [.type (.var (.declared t))]
    let σ := Subst.zip [t, u] [integer 0, integer 1]
    s.Affirms fun s => s.below ((Ty.var (.declared u)).subst σ .common)
      (comparable.subst σ .common) := by
  intro chain s t u integer comparable σ
  obtain ⟨horder, hdecls, hbounds, hcoherent, happ, hanswers, hyes⟩ : s.catalog.InOrder ∧
      (∀ d ∈ s.catalog.decls, (d.vars.map TypeVar.name).Nodup ∧
        ∀ n ∈ d.parents, n.toTy.isApplied s d.vars = true) ∧
      (∀ d ∈ s.catalog.decls, (d.vars.map TypeVar.name).Nodup ∧
        ∀ v ∈ d.vars, (s.catalog.upper v).isApplied s d.vars = true) ∧ s.isCoherent = true ∧
      ((s.lineageOf "Chain").map Lineage.params = some [t, u] ∧
        comparable.isApplied s [t, u] = true ∧
        ∀ x ∈ [t, u].zip [integer 0, integer 1], x.2.isApplied s [] = true ∧
          ((s.catalog.upper x.1).subst σ .common).isApplied s [] = true) ∧
      (∀ x ∈ [t, u].zip [integer 0, integer 1], (((s.withDepth 20).below x.2
        ((s.catalog.upper x.1).subst σ .common)).outcome {}).1.map id = .ok true) ∧
      (((s.withDepth 20).below (.var (.declared u)) comparable).outcome {}).1.map id = .ok true := by
    decide +kernel
  have hgrown : s.catalog.Grown := Catalog.grown_extended _
  have hs : s.Hierarchy := .of_grown hgrown horder hdecls hcoherent
  obtain ⟨hparams, hcomparable, hus⟩ := happ
  obtain ⟨⟨_, _, _⟩, hl, rfl⟩ := Option.map_eq_some_iff.1 hparams
  have hfit : ∀ x ∈ [t, u].zip [integer 0, integer 1],
      s.Affirms fun s => s.below x.2 ((s.catalog.upper x.1).subst σ .common) := by
    intro x hx
    obtain ⟨r, m', hr, rfl⟩ := exists_answers (hanswers x hx)
    exact affirms_of_answers hs (.of_isApplied (hus x hx).1) (.of_isApplied (hus x hx).2)
      (Memory.faithful_empty s) hr
  obtain ⟨r, m', hr, rfl⟩ := exists_answers hyes
  have harg : ∀ v ∈ [integer 0, integer 1], v.Applied s [] := by
    intro v hv
    rw [show [integer 0, integer 1] = ([t, u].zip [integer 0, integer 1]).map Prod.snd from rfl] at hv
    obtain ⟨x, hx, rfl⟩ := List.mem_map.1 hv
    exact .of_isApplied (hus x hx).1
  exact below_subst hs (.of_grown hgrown hbounds) hl rfl harg (fun x hx => ⟨_, hfit x hx⟩)
    (.var (by simp)) (.of_isApplied hcomparable) (Memory.faithful_empty s) hr _ _

end Setting
end Generics
