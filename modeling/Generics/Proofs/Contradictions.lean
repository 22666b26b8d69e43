/-
# Contradictions

An inference that fails because of a contradiction says that no arguments will do. Over plain catalogs
this is so as long as no bounds were weighed against each other (`none_of_contradiction`), because up to
there a search asks for nothing but what every solution has.

Weighing bounds is where more is asked for, and what is contradicted by then is reported like any other
contradiction, although there may be arguments.

- Of several bounds that would do, one is picked, and what is asked for afterwards rests on that choice
  (`contradiction_refuted`).
- A lower bound has to be below an upper one. But subtyping does not chain through raw types, so that a
  type may stand between two bounds that do not fit, as in the example at the end.
-/

import Generics.Proofs.Limits
import Generics.Proofs.Rounds
import Generics.Proofs.Verdicts

namespace Generics
namespace Inference

open Query Setting

/-! ### Searches that weigh bounds -/

/-- Whether bounds of some unknown are next to be weighed against each other. -/
def Problem.weighs (p : Problem) : Bool :=
  p.pending.isEmpty && p.unknowns.any (Unknown.hasClearBounds p.mentions)

/-- Whether a search comes to weigh bounds, before it ends or forks and within so many advances. -/
def weighsWithin (s : Setting) : Nat → Problem → Query Bool
  | 0, _ => pure false
  | n + 1, p =>
    match p.pending with
    | c :: rest => do
      match ← p.advanceBy s c rest with
      | .further p' => weighsWithin s n p'
      | _ => pure false
    | [] => do
      let settled ← p.settle (p.unknowns.length + 1)
      if settled.weighs then pure true
      else match ← settled.conclude s with
        | .further p' => weighsWithin s n p'
        | _ => pure false

/-- The problem that is searched for arguments. -/
def prepare (s : Setting) (target : Ty) (decl : String) : Query Problem := do
  let params ← s.params decl
  let seed ← generic decl params
  pure ((Problem.start s params).push [{ lhs := seed.toTy, rel := .below, rhs := target }])

/-- Whether inferring arguments for a declaration comes to weigh bounds. -/
def weighs (s : Setting) (target : Ty) (decl : String) : Query Bool := do
  let p ← prepare s target decl
  weighsWithin s (advancesAtMost s p) p

variable {s : Setting} {k : Fragment} {vars : List TypeVar} {σ : Var → Ty} {Γ : Scope}
  {m m' : Memory} {p : Problem} {progress : Progress} {decl : String} {target : Ty}

/-- Inferring prepares a problem and searches it. -/
theorem inferSearch_eq (s : Setting) (target : Ty) (decl : String) :
    inferSearch s target decl = prepare s target decl >>= search s := by
  simp only [inferSearch, prepare, bind_assoc, pure_bind]

/-- What is prepared for a known declaration is the problem that inferring solves. -/
theorem prepare_answers {l : Lineage} (hl : s.lineageOf decl = some l) (hm : m.Faithful s)
    (target : Ty) : ∃ site m₁, m.Stays s m₁ ∧
      (prepare s target decl).Answers m (inferProblem s site decl l.params target) m₁ := by
  obtain ⟨m₁, hparams, hst⟩ := (params_settles hl).stays hm
  refine ⟨nextSite m₁, { m₁ with built := m₁.built + 1 }, hst.trans ⟨hst.faithful, rfl, rfl⟩, ?_⟩
  exact answers_bind.2 ⟨l.params, m₁, hparams, rfl⟩

/-! ### Rounds that weigh nothing -/

/-- Without clear bounds nothing is picked. -/
theorem Unknown.pickAll_unclear {mentions : Ty → Bool} {us : List Unknown}
    (h : us.any (Unknown.hasClearBounds mentions) = false) :
    Unknown.pickAll s mentions us = pure (.ok us) := by
  induction us with
  | nil => rfl
  | cons u us ih =>
    rw [List.any_cons, Bool.or_eq_false_iff] at h
    rw [Unknown.pickAll, Unknown.pick, if_neg (by simp [h.1]), pure_bind, ih h.2]
    rfl

/-- **Without bounds to weigh, concluding changes nothing.** -/
theorem Problem.conclude_unweighed (hcalm : p.weighs = false)
    (h : (p.conclude s).Answers m progress m') : progress = .further p ∨
      progress = .further { p with picked := true } ∨ progress = .done p.outcome := by
  unfold Problem.conclude at h
  split at h
  · next hpend =>
    rw [Problem.weighs, hpend, Bool.true_and] at hcalm
    have hpick : p.pick s = pure (.ok p) := by
      rw [Problem.pick, Unknown.pickAll_unclear hcalm]
      rfl
    rw [hpick, pure_bind] at h
    dsimp only at h
    split at h
    · exact .inr (.inl (answers_pure.1 h).1)
    · exact .inr (.inr (answers_pure.1 h).1)
  · exact .inl (answers_pure.1 h).1

/-- A problem with nothing left to do is not contradicted. -/
theorem Problem.outcome_failure {f : Failure} (h : p.outcome.failure = some f) :
    f.kind? = some .incomplete := by
  unfold Problem.outcome at h
  dsimp only at h
  split at h <;> cases h
  rfl

/-- A search ends with a contradiction. -/
def Contradicts (r : Except Failure (Outcome × Effort)) : Prop :=
  ∃ f, f.kind? = some .unsatisfiable ∧
    (r = .error f ∨ ∃ o e, r = .ok (o, e) ∧ o.failure = some f)

/-- An outcome with another failure, or none, is no contradiction. -/
theorem not_contradicts_of_failure {o : Outcome} {e : Effort}
    (h : ∀ f, o.failure = some f → f.kind? ≠ some .unsatisfiable) : ¬ Contradicts (.ok (o, e)) := by
  rintro ⟨f, hkind, hf | ⟨o', e', hf, hfailure⟩⟩ <;> cases hf
  exact h f hfailure hkind

/-- **What one step keeps.** A problem that is met by what is put in, and from which no bounds are weighed,
advances to one that is met as well, or ends without a contradiction. -/
theorem Problem.advance_unweighed (hs : s.Regular k) (hplain : s.Plain) (hacyc : s.Acyclic)
    (hσ : Filling s vars σ) (hnull : ∀ w ∈ vars, σ (.declared w) ≠ .null) {n : Nat}
    (hp : p.Stands s k vars m) (hsimple : p.Simple s vars) (hmet : p.Met s Γ σ)
    (hfree : (weighsWithin s (n + 1) p).Answers m false m') :
    ∃ progress m₁, (p.advance s).Answers m progress m₁ ∧
      ((∃ p', progress = .further p' ∧ p'.Met s Γ σ ∧ (weighsWithin s n p').Answers m₁ false m') ∨
        ∃ o, progress = .done o ∧ ∀ f, o.failure = some f → f.kind? ≠ some .unsatisfiable) := by
  obtain ⟨μ, hg, htidy⟩ := hp.marked
  cases hpend : p.pending with
  | cons c rest =>
    simp only [weighsWithin, hpend] at hfree
    obtain ⟨progress, m₁, hprogress, hfree⟩ := answers_bind.1 hfree
    refine ⟨progress, m₁, by rwa [advance, hpend], ?_⟩
    obtain ⟨c', hbec, hc', hmoves⟩ :=
      advanceBy_moves hs hplain hp.faithful hg htidy hsimple hpend hprogress
    have hc : c ∈ p.pending := by rw [hpend]; exact List.mem_cons_self
    have hholds := (hbec.under (hsimple.pending c hc) (htidy.agrees hmet.agrees _)).2
      (hmet.holds.1 c hc)
    obtain ⟨hkept, hends⟩ := hmoves.met hs hacyc hσ hpend hmet hc' hholds
    cases progress with
    | further p' => exact .inl ⟨p', rfl, hkept p' rfl, hfree⟩
    | fork ps => cases hmoves
    | done o =>
      obtain ⟨w, hw, hw'⟩ := hends o rfl
      exact absurd hw' (hnull w hw)
  | nil =>
    simp only [weighsWithin, hpend] at hfree
    obtain ⟨q, m₁, hsettle, hfree⟩ := answers_bind.1 hfree
    have hmet₁ := settle_met hs hacyc hσ hp.faithful hg.clean htidy hsimple hmet hsettle
    cases hcalm : q.weighs with
    | true =>
      rw [hcalm] at hfree
      cases (answers_pure.1 hfree).1
    | false =>
      rw [hcalm] at hfree
      obtain ⟨progress, m₂, hconclude, hfree⟩ := answers_bind.1 hfree
      refine ⟨progress, m₂, ?_, ?_⟩
      · rw [advance, hpend]
        exact answers_bind.2 ⟨q, m₁, hsettle, hconclude⟩
      · rcases conclude_unweighed hcalm hconclude with rfl | rfl | rfl
        · exact .inl ⟨_, rfl, hmet₁, hfree⟩
        · exact .inl ⟨_, rfl, ⟨hmet₁.agrees, hmet₁.holds⟩, hfree⟩
        · refine .inr ⟨_, rfl, fun f hf hkind => ?_⟩
          cases hkind.symm.trans (outcome_failure hf)

/-- **A search that weighs no bounds contradicts no solutions**: the problem stays met by what is put
in. -/
theorem searchWithin_not_contradicts (hs : s.Regular k) (hplain : s.Plain) (hacyc : s.Acyclic)
    (hσ : Filling s vars σ) (hnull : ∀ w ∈ vars, σ (.declared w) ≠ .null) {n : Nat} {effort : Effort}
    (hp : p.Stands s k vars m) (hsimple : p.Simple s vars) (hmet : p.Met s Γ σ)
    (hfree : (weighsWithin s n p).Answers m false m') :
    ¬ Contradicts ((searchWithin s n p effort).outcome m).1 := by
  induction n generalizing p effort m with
  | zero =>
    rintro ⟨f, hkind, hf | ⟨o, e, hf, -⟩⟩ <;> cases hf
    cases hkind
  | succ n ih =>
    rw [searchWithin_succ]
    split
    · exact not_contradicts_of_failure fun f hf hkind => by cases hf; cases hkind
    · obtain ⟨progress, m₁, hadvance, hcases⟩ :=
        Problem.advance_unweighed hs hplain hacyc hσ hnull hp hsimple hmet hfree
      have hadvance' : (p.advance s).outcome m = (.ok progress, m₁) := hadvance
      rw [outcome_bind, hadvance']
      rcases hcases with ⟨p', rfl, hmet', hfree'⟩ | ⟨o, rfl, hcalm⟩
      · exact ih (hp.further hs hadvance) (hsimple.further hs hplain hp hadvance) hmet' hfree'
      · exact not_contradicts_of_failure hcalm

/-! ### Contradictions of inferences -/

/-- An inference fails with a contradiction only if its search ends with one. -/
theorem contradicts_of_infer {m₁ : Memory} (hprepare : (prepare s target decl).Answers m p m₁)
    (hfail : ((infer s target decl).outcome m).1.mapError Failure.kind? =
      .error (some .unsatisfiable)) : Contradicts ((search s p).outcome m₁).1 := by
  have hprepare : (prepare s target decl).outcome m = (.ok p, m₁) := hprepare
  rw [infer_concluded, inferSearch_eq, outcome_bind, hprepare] at hfail
  dsimp only at hfail
  generalize (search s p).outcome m₁ = r at hfail ⊢
  obtain ⟨f | ⟨o, e⟩, m₂⟩ := r
  · exact ⟨f, Except.error.inj hfail, .inl rfl⟩
  · simp only [concluded] at hfail
    cases hsolutions : o.solutions with
    | some types =>
      rw [hsolutions] at hfail
      cases hfail
    | none =>
      rw [hsolutions] at hfail
      have hkind : (o.failure.getD (.incomplete [])).kind? = some .unsatisfiable :=
        Except.error.inj hfail
      cases hfailure : o.failure with
      | some f =>
        rw [hfailure] at hkind
        exact ⟨f, hkind, .inr ⟨o, e, rfl, hfailure⟩⟩
      | none =>
        rw [hfailure] at hkind
        cases hkind

/-- **A contradiction means that there are no arguments**, if no bounds were weighed. Over a plain vetted
catalog, and for a closed shallow target, if an inference fails with a contradiction and did not come to
weigh bounds, then no plain arguments other than `Null` make the declaration well-formed and below the
target. -/
theorem none_of_contradiction (hv : s.Vetted) (hacyc : s.Acyclic)
    (hdecls : ∀ t ∈ s.catalog.declaredTypes, t.isPlain = true)
    (hnames : ((s.paramsOf decl).map TypeVar.name).Nodup) (htarget : target.Ground s)
    (hshallow : target.isShallow = true) (hm : m.Faithful s) (htame : m.Tame s .full)
    (hfree : (weighs s target decl).Answers m false m')
    (hfail : ((infer s target decl).outcome m).1.mapError Failure.kind? =
      .error (some .unsatisfiable)) {n : Nominal} (hn : n.decl = decl) (hnull : .type .null ∉ n.args) : ¬ Suits s target n := by
  intro hsuits
  have hs := hv.regular
  have hplain := hv.plain hdecls
  obtain ⟨l, hl, hinst⟩ := hsuits.exists_inst hs hplain.regular hn htarget
  rw [paramsOf_eq hl] at hnames
  obtain ⟨site, m₁, hst, hprepare⟩ := prepare_answers hl hm target
  obtain ⟨p, m₂, hp, hfree⟩ := answers_bind.1 hfree
  obtain ⟨rfl, rfl⟩ := hprepare.unique hp
  have hstands := stands_infer hs hl hnames htarget.closed.whole htarget.vars hst.faithful
    (hst.keeps.tame htame) site
  have hsimple := simple_infer hplain hl (htarget.asked hshallow) site
  have hmet := hinst.met hnames htarget.vars site (Memory.scope {})
  have hothers := hinst.image_ne_null fun hmem => hnull (mem_types hmem)
  exact searchWithin_not_contradicts hs hplain hacyc hinst.filling hothers hstands hsimple hmet hfree
    (contradicts_of_infer hprepare hfail)

/-- With `G<T extends Number>` below `Iterable<T>`, the bound contradicts `Iterable<String>`, and nothing
but `Null` can be given to `G`. -/
theorem none_of_contradiction_number :
    let s : Setting :=
      { catalog := .extended [{ name := "G", params := [⟨"T", "Number"⟩], parents := ["Iterable<T>"] }] }
    let target : Ty := .nominal ⟨.given 0, [0]⟩ "Iterable"
      [.type (.nominal ⟨.given 0, [9]⟩ "String" [])]
    ((infer s target "G").outcome {}).1.mapError Failure.kind? = .error (some .unsatisfiable) ∧
      ∀ n : Nominal, n.decl = "G" → .type .null ∉ n.args → ¬ Suits s target n := by
  intro s target
  obtain ⟨haccepts, hdecls, horder, hnames, htargetAccepted, hfail, hfree⟩ :
      (∀ t ∈ s.catalog.declaredTypes, s.acceptsWithin 20 t = true ∧ t.sparing = true) ∧
        (∀ t ∈ s.catalog.declaredTypes, t.isPlain = true) ∧ s.catalog.InOrder ∧
          ((s.paramsOf "G").map TypeVar.name).Nodup ∧ s.acceptsWithin 20 target = true ∧
            ((infer s target "G").outcome {}).1.mapError Failure.kind? = .error (some .unsatisfiable) ∧
              ((weighs s target "G").outcome {}).1.map (!·) = .ok true := by decide +kernel
  obtain ⟨b, m', hfree, hb⟩ := exists_answers hfree
  rw [Bool.not_eq_true'] at hb
  subst hb
  have hv : s.Vetted := .of_within (Catalog.grown_extended _) haccepts (by decide)
  have htarget : target.Ground s :=
    ⟨rfl, rfl, .of_within htargetAccepted, .inr (by decide)⟩
  refine ⟨hfail, fun n hn hnull => ?_⟩
  exact none_of_contradiction hv ((Catalog.grown_extended _).acyclic horder) hdecls hnames htarget rfl
    (Memory.faithful_empty s) (Memory.tame_empty s .full) hfree hfail hn hnull

/-- With `G<T, U extends T>` below `Map<T, U>`, `Integer` is picked for `T` under
`Map<? super Integer, ? super Number>`, and this contradicts `U`. But `G<Number, Number>` is below the
target. -/
theorem contradiction_refuted :
    let s : Setting :=
      { catalog := .extended [{ name := "G", params := [{ name := "T" }, ⟨"U", "T"⟩],
                                parents := ["Map<T, U>"] }] }
    let number : Site → Ty := fun site => .nominal site "Number" []
    let target : Ty := .nominal ⟨.given 0, [0]⟩ "Map"
      [.wild .object (.nominal ⟨.given 0, [12]⟩ "Integer" []), .wild .object (number ⟨.given 0, [29]⟩)]
    let suited : Ty := .nominal ⟨.given 1, [0]⟩ "G"
      [.type (number ⟨.given 1, [2]⟩), .type (number ⟨.given 1, [10]⟩)]
    ((target.check s).outcome {}).1 = .ok () ∧
      ((infer s target "G").outcome {}).1.mapError Failure.kind? = .error (some .unsatisfiable) ∧
        ((suited.check s).outcome {}).1 = .ok () ∧
          ((s.below suited target).outcome {}).1 = .ok true := by
  decide +kernel

/-- With `Foo<T>` below `Bar` below `Iterable<String>`, the raw `Foo` is not below `Iterable<String>`. So
under `Comparable<? super Foo>` the bounds of `G<T extends Iterable<String>>`, which is below
`Comparable<T>`, do not fit. But `G<Bar>` is below the target. -/
example :
    let s : Setting :=
      { catalog := .extended
          [{ name := "Bar", parents := ["Iterable<String>"] },
           { name := "Foo", params := [{ name := "T" }], parents := ["Bar"] },
           { name := "G", params := [⟨"T", "Iterable<String>"⟩], parents := ["Comparable<T>"] }] }
    let target : Ty := .nominal ⟨.given 0, [0]⟩ "Comparable"
      [.wild .object (.nominal ⟨.given 0, [19]⟩ "Foo" [])]
    let suited : Ty := .nominal ⟨.given 1, [0]⟩ "G" [.type (.nominal ⟨.given 1, [2]⟩ "Bar" [])]
    ((target.check s).outcome {}).1 = .ok () ∧
      ((infer s target "G").outcome {}).1.mapError Failure.kind? = .error (some .unsatisfiable) ∧
        ((suited.check s).outcome {}).1 = .ok () ∧
          ((s.below suited target).outcome {}).1 = .ok true := by
  decide +kernel

end Inference
end Generics
