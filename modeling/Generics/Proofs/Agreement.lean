/-
# Searching and comparing agree

Two ways lead to the answer whether a closed type is below another one: comparing the two, and
searching without unknowns for a way to meet the constraint. They go by different rules. Comparing
answers at once for one occurrence and for equal types, keeps a trail of the bounds it went through
and tries alternatives in order; searching takes equalities apart and forks. Over a vetted catalog
with acyclic inheritance they agree (`search_iff_ask`), and so inferring for a declaration without
parameters succeeds exactly if the declaration is below the target.

Primitives may be compared as a whole and as components of arrays. In other places the two ways part:
with a parameter bounded by `int` the wildcard of `P<?>` is captured below `int`, which is not below
`Object`, so that the search does not find `P<?>` below itself (`primitive_bound_parts`).
-/

import Generics.Proofs.Catalogs
import Generics.Proofs.Ground
import Generics.Proofs.Inferring

namespace Generics

/-- A type without variables that passes the check; intersections in it are taken apart, and
primitives stand in it as a whole or as components of arrays. -/
structure Ty.Ground (s : Setting) (t : Ty) : Prop where
  vars : t.vars = []
  flat : t.isFlat = true
  accepted : s.Accepts t
  prims : t.isPrim = true ∨ t.sparing = true

/-- A ground type is closed and whole. -/
theorem Ty.Ground.closed {s : Setting} {t : Ty} (h : t.Ground s) : t.Closed s .full where
  whole := h.prims.imp id (h.accepted.regular h.flat)
  vars := h.vars

namespace Inference

open Query Setting

variable {s : Setting} {m m₁ m₂ : Memory}

/-- Whatever was asked before, a search and a comparison have the same outcome. -/
theorem search_iff_ask (hs : s.Regular .full) (hacyc : s.Acyclic) {c : Claim}
    (hl : c.lhs.Closed s .full) (hr : c.rhs.Closed s .full) (hm₁ : m₁.Faithful s)
    (ht₁ : m₁.Tame s .full) (hm₂ : m₂.Faithful s) (ht₂ : m₂.Tame s .full) :
    ∃ o e m', (search s ((Problem.start s []).push [{ c with }])).Answers m₁ (o, e) m' ∧
      ∀ r m', (c.ask s).Answers m₂ r m' →
        (o.solutions.isSome = true → r = true) ∧
          (r = true → o.isRunaway = false → o.solutions = some []) := by
  obtain ⟨o, e, m', hsearch, hsound, hcomplete⟩ := search_ground hs hacyc hl hr hm₁ ht₁
  refine ⟨o, e, m', hsearch, fun r m' hask => ?_⟩
  have hdecides := ((c.ask_decides hs hl hr m₂.scope) m₂ r m' ⟨hm₂, .refl _, ht₂⟩ hask).2
  have hholds := c.holds_iff hs hl hr m₁.scope m₂.scope
  exact ⟨fun h => hdecides.2 (hholds.1 (hsound h)), fun h => hcomplete (hholds.2 (hdecides.1 h))⟩

/-- An inference succeeds exactly if its search found solutions. -/
theorem concluded_answers (target : Ty) (decl : String) (o : Outcome) (e : Effort) (m : Memory) :
    (∃ i, (concluded target decl (.ok (o, e), m)).1 = .ok i) ↔ o.solutions.isSome = true := by
  cases h : o.solutions <;> simp [concluded, h]

/-- A search that found nothing ran away only if the failure says so. -/
theorem Outcome.not_runaway_of_concluded {target : Ty} {decl : String} {o : Outcome} {e : Effort}
    (hnone : o.solutions = none)
    (h : ∀ f, (concluded target decl (.ok (o, e), m)).1 = .error f → f.kind? ≠ some .runaway) :
    o.isRunaway = false := by
  have hkind := h (o.failure.getD (.incomplete [])) (by simp [concluded, hnone])
  cases hfail : o.failure with
  | none => simp [Outcome.isRunaway, hfail]
  | some f =>
    rw [hfail] at hkind
    simpa [Outcome.isRunaway, hfail] using hkind

/-- Inferring for a declaration without parameters agrees with comparing it with the target. -/
theorem infer_iff_below (hs : s.Regular .full) (hacyc : s.Acyclic) {decl : String} {l : Lineage}
    (hl : s.lineageOf decl = some l) (hparams : l.params = []) {target : Ty}
    (htarget : target.Closed s .full) (hm₁ : m₁.Faithful s) (ht₁ : m₁.Tame s .full)
    (hm₂ : m₂.Faithful s) (ht₂ : m₂.Tame s .full)
    (hrun : ∀ f, ((infer s target decl).outcome m₁).1 = .error f → f.kind? ≠ some .runaway)
    {site : Site} {r : Bool} {m' : Memory}
    (hbelow : (s.below (.nominal site decl []) target).Answers m₂ r m') :
    (∃ i m', (infer s target decl).Answers m₁ i m') ↔ r = true := by
  have hdecl : ∀ site, (Ty.nominal site decl []).Closed s .full := fun site => by
    refine ⟨.inr ?_, rfl⟩
    rw [Ty.Regular]
    exact ⟨⟨l, hl, .inl rfl⟩, by rw [Arg.RegularAll]; trivial⟩
  obtain ⟨site', m, hst, hinfer⟩ := infer_outcome hl hm₁ target
  rw [hparams] at hinfer
  obtain ⟨o, e, m₃, hsearch, hsound, hcomplete⟩ := search_ground hs hacyc
    (c := ⟨.nominal site' decl [], .below, target⟩) (hdecl site') htarget hst.faithful
    (hst.keeps.tame ht₁)
  have houtcome : (search s (inferProblem s site' decl [] target)).outcome m = (.ok (o, e), m₃) :=
    hsearch
  rw [houtcome] at hinfer
  rw [hinfer] at hrun
  -- The derivation does not see where the declaration stands.
  have hdecides : r = true ↔
      Below s m.scope (Ty.nominal site' decl []).shape target.shape := by
    have hcomparable := (hdecl site).comparable htarget m₂.scope
    exact (below_decides hs _ _ _ _ hcomparable m₂ r m' ⟨hm₂, .refl _, ht₂⟩ hbelow).2.trans
      ((hdecl site).below_iff hs htarget m₂.scope m.scope)
  have hanswers : (∃ i m', (infer s target decl).Answers m₁ i m') ↔ o.solutions.isSome = true := by
    rw [← concluded_answers target decl o e m₃, ← hinfer]
    exact exists_congr fun i => ⟨fun ⟨_, h⟩ => by rw [show _ = _ from h], fun h => ⟨_, Prod.ext h rfl⟩⟩
  rw [hanswers, hdecides]
  refine ⟨hsound, fun hholds => ?_⟩
  by_contra hnone
  rw [Option.not_isSome_iff_eq_none] at hnone
  rw [hcomplete hholds (o.not_runaway_of_concluded hnone hrun)] at hnone
  cases hnone

/-- **The search and the comparison agree on closed types.** Over a vetted catalog with acyclic
inheritance, the search without unknowns for a claim between closed types ends, and unless it ran out
of steps it succeeds exactly if the comparison, when it answers, answers yes. In particular inferring
for a declaration without parameters succeeds exactly if the declaration is below the target. -/
theorem search_agrees_with_comparison (hv : s.Vetted) (hacyc : s.Acyclic) (hm₁ : m₁.Faithful s)
    (ht₁ : m₁.Tame s .full) (hm₂ : m₂.Faithful s) (ht₂ : m₂.Tame s .full) :
    (∀ c : Claim, c.lhs.Ground s → c.rhs.Ground s →
      ∃ o e m', (search s ((Problem.start s []).push [{ c with }])).Answers m₁ (o, e) m' ∧
        (o.isRunaway = false → ∀ r m', (c.ask s).Answers m₂ r m' →
          (o.solutions.isSome = true ↔ r = true))) ∧
    ∀ decl site target, (s.lineageOf decl).isSome = true → s.paramsOf decl = [] → target.Ground s →
      (∀ f, ((infer s target decl).outcome m₁).1 = .error f → f.kind? ≠ some .runaway) →
        ∀ r m', (s.below (.nominal site decl []) target).Answers m₂ r m' →
          ((∃ i m', (infer s target decl).Answers m₁ i m') ↔ r = true) := by
  have hs := hv.regular
  refine ⟨fun c hl hr => ?_, fun decl site target hl hparams htarget hrun r m' hbelow => ?_⟩
  · obtain ⟨o, e, m', hsearch, hagree⟩ :=
      search_iff_ask hs hacyc hl.closed hr.closed hm₁ ht₁ hm₂ ht₂
    refine ⟨o, e, m', hsearch, fun hrun r m' hask => ?_⟩
    obtain ⟨hsound, hcomplete⟩ := hagree r m' hask
    exact ⟨hsound, fun h => by rw [hcomplete h hrun]; rfl⟩
  · obtain ⟨l, hl⟩ := Option.isSome_iff_exists.1 hl
    exact infer_iff_below hs hacyc hl (paramsOf_eq hl ▸ hparams) htarget.closed hm₁ ht₁ hm₂ ht₂ hrun
      hbelow

/-- Searching for a way from `ArrayList<Integer>` to `Collection<? extends Number>` agrees with
comparing the two, and inferring `String` for `CharSequence` with comparing those. -/
theorem search_agrees_with_comparison_standard :
    let s : Setting := { catalog := .standard }
    let list : Ty := .nominal ⟨.given 0, [0]⟩ "ArrayList"
      [.type (.nominal ⟨.given 0, [10]⟩ "Integer" [])]
    let collection : Ty := .nominal ⟨.given 1, [0]⟩ "Collection"
      [.wild (.nominal ⟨.given 1, [21]⟩ "Number" []) .null]
    let chars : Ty := .nominal ⟨.given 2, [0]⟩ "CharSequence" []
    (∃ o e m', (search s ((Problem.start s []).push [⟨⟨list, .below, collection⟩, []⟩])).Answers {}
        (o, e) m' ∧ (o.isRunaway = false → ∀ r m', (s.below list collection).Answers {} r m' →
          (o.solutions.isSome = true ↔ r = true))) ∧
      ∀ r m', (s.below (.nominal .common "String" []) chars).Answers {} r m' →
        ((∃ i m', (infer s chars "String").Answers {} i m') ↔ r = true) := by
  intro s list collection chars
  have hempty : ({} : Memory).Tame s .full := Memory.tame_empty s .full
  obtain ⟨hall, hl, hparams, hok⟩ : (∀ t ∈ [list, collection, chars], t.vars = [] ∧
      t.isFlat = true ∧ s.acceptsWithin 20 t = true ∧ t.sparing = true) ∧
        (s.lineageOf "String").isSome = true ∧ s.paramsOf "String" = [] ∧
          ((infer s chars "String").outcome {}).1.toBool = true := by
    decide +kernel
  have hground : ∀ t ∈ [list, collection, chars], t.Ground s := by
    intro t ht
    obtain ⟨hvars, hflat, haccepts, hsparing⟩ := hall t ht
    exact ⟨hvars, hflat, .of_within haccepts, .inr hsparing⟩
  obtain ⟨hclaims, hinfer⟩ := search_agrees_with_comparison vetted_standard acyclic_standard
    (Memory.faithful_empty s) hempty (Memory.faithful_empty s) hempty
  refine ⟨hclaims _ (hground list (by simp)) (hground collection (by simp)), ?_⟩
  refine hinfer "String" .common chars hl hparams (hground chars (by simp)) fun f hf => ?_
  rw [hf] at hok
  cases hok

/-- **A primitive as the bound of a parameter makes the two ways part.** With `P` over `N extends int`,
`List<P<?>>` passes the check, and comparing finds it below a copy of itself, as its arguments are equal.
Searching takes `P<?> = P<?>` apart and asks for the captured variable, which is below `int`, to be below
`Object`. So a declaration that extends `List<P<?>>` is not inferred for it. -/
theorem primitive_bound_parts :
    let s : Setting := { catalog := .extended [
      { name := "P", params := [⟨"N", "int"⟩] },
      { name := "D", parents := ["List<P<?>>"] }] }
    let list (n : Nat) : Ty := .nominal ⟨.given n, [0]⟩ "List"
      [.type (.nominal ⟨.given n, [5]⟩ "P" [.wild .object .null])]
    (((list 0).check s).outcome {}).1 = .ok () ∧
      ((s.below (list 0) (list 1)).outcome {}).1 = .ok true ∧
      ((search s ((Problem.start s []).push [⟨⟨list 0, .below, list 1⟩, []⟩])).outcome {}).1.map
        (fun r => r.1.solutions) = .ok none ∧
      ((s.below (.nominal .common "D" []) (list 0)).outcome {}).1 = .ok true ∧
      ((infer s (list 0) "D").outcome {}).1.toBool = false := by
  decide +kernel

end Inference
end Generics
