/-
# Inferring as a search

Inferring arguments for a declaration is a search for its parameters, within their bounds, with the
one constraint that the declaration applied to its own parameters is below the target. The memory
that the search starts from differs from the one before only in what is known about declarations and
in the number of types that were built (`infer_outcome`). So what is known about searches says what
an inference that succeeded has found (`infer_answers`).
-/

import Generics.Inference.Diamond
import Generics.Proofs.Solving

namespace Generics
namespace Inference

open Query Setting

variable {s : Setting} {m m' : Memory} {decl : String} {l : Lineage} {target : Ty}

/-- The parameters as arguments. -/
def ownArgs (params : List TypeVar) : List Arg := params.map fun v => .type (.var (.declared v))

/-- Putting types in for its own parameters applies a declaration to them. -/
theorem rebuild_own (f : Var → Ty) (site : Site) (decl : String) (params : List TypeVar) :
    (Ty.nominal site decl (ownArgs params)).rebuild f =
      .nominal .common decl ((params.map fun v => f (.declared v)).map .type) := by
  rw [Ty.rebuild_nominal, ownArgs, List.map_map, List.map_map]
  rfl

/-- A declaration applied to its own parameters mentions no other variables. -/
theorem known_own {A : Nat → Prop} (site : Site) (decl : String) (params : List TypeVar) :
    (Ty.nominal site decl (ownArgs params)).Known (· ∈ params) A := by
  intro v hv
  rw [Ty.vars, Arg.mem_varsAll] at hv
  obtain ⟨a, ha, hv⟩ := hv
  obtain ⟨w, hw, rfl⟩ := List.mem_map.1 ha
  exact .inl ⟨w, List.mem_singleton.1 hv, hw⟩

/-- The problem that inferring solves; the declaration applied to its own parameters stands at the
site. -/
def inferProblem (s : Setting) (site : Site) (decl : String) (params : List TypeVar) (target : Ty) :
    Problem :=
  (Problem.start s params).push
    [{ lhs := .nominal site decl (ownArgs params), rel := .below, rhs := target }]

/-- What inferring makes of the outcome of its search. -/
def concluded (target : Ty) (decl : String) :
    Except Failure (Outcome × Effort) × Memory → Except Failure Inferred × Memory
  | (.error f, m) => (.error f, m)
  | (.ok (o, effort), m) =>
    match o.solutions with
    | some types =>
      (.ok ⟨target, decl, ⟨nextSite m, decl, types.map .type⟩, !o.ambiguous, effort⟩,
        { m with built := m.built + 1 })
    | none => (.error (o.failure.getD (.incomplete [])), m)

/-- **Inferring is a search** from a memory that differs in what is known and built only. -/
theorem infer_outcome (hl : s.lineageOf decl = some l) (hm : m.Faithful s) (target : Ty) :
    ∃ site m₁, m.Stays s m₁ ∧ (infer s target decl).outcome m =
      concluded target decl ((search s (inferProblem s site decl l.params target)).outcome m₁) := by
  obtain ⟨m₁, hparams, hst⟩ := (params_settles hl).stays hm
  refine ⟨nextSite m₁, { m₁ with built := m₁.built + 1 }, hst.trans ⟨hst.faithful, rfl, rfl⟩, ?_⟩
  have hparams' : (s.params decl).outcome m = (.ok l.params, m₁) := hparams
  have hseed : (generic decl l.params).outcome m₁ =
      (.ok ⟨nextSite m₁, decl, ownArgs l.params⟩, { m₁ with built := m₁.built + 1 }) := rfl
  rw [infer, outcome_bind, hparams']
  dsimp only
  rw [outcome_bind, hseed]
  dsimp only
  rw [outcome_bind]
  change _ = concluded target decl ((search s (inferProblem s _ decl l.params target)).outcome _)
  rw [inferProblem, Nominal.toTy]
  cases (search s ((Problem.start s l.params).push [_])).outcome _ with
  | mk r m₂ =>
    cases r with
    | error f => rfl
    | ok r =>
      obtain ⟨o, e⟩ := r
      cases htypes : o.solutions <;> simp only [concluded, htypes] <;> rfl

/-- What an inference that succeeded says about its search. -/
structure Concludes (s : Setting) (target : Ty) (l : Lineage) (m m' : Memory) (types : List Ty)
    (i : Inferred) : Prop where
  lineage : s.lineageOf i.decl = some l
  found : ∃ site m₁ m₂ o, m.Stays s m₁ ∧
    (search s (inferProblem s site i.decl l.params target)).Answers m₁ (o, i.effort) m₂ ∧
      o.solutions = some types ∧ i.unique = !o.ambiguous ∧ m' = { m₂ with built := m₂.built + 1 }
  decl : i.result.decl = i.decl
  args : i.result.args = types.map .type

/-- **An inference that succeeds was found by the search.** -/
theorem infer_answers (hm : m.Faithful s) {i : Inferred}
    (h : (infer s target decl).Answers m i m') :
    i.decl = decl ∧ ∃ l types, Concludes s target l m m' types i := by
  obtain ⟨params, m₁, hparams, _⟩ := answers_bind.1 h
  obtain ⟨l, hl, -⟩ := settles_params ((params_steady s decl).stays hm hparams).1
  obtain ⟨site, m₁, hst, hinfer⟩ := infer_outcome hl hm target
  rw [Answers, hinfer] at h
  cases hsearch : (search s (inferProblem s site decl l.params target)).outcome m₁ with
  | mk r m₂ =>
    rw [hsearch] at h
    cases r with
    | error f => cases h
    | ok r =>
      obtain ⟨o, e⟩ := r
      cases htypes : o.solutions with
      | none =>
        simp only [concluded, htypes] at h
        cases h
      | some types =>
        simp only [concluded, htypes] at h
        cases h
        exact ⟨rfl, l, types, hl, ⟨site, m₁, m₂, o, hst, hsearch, htypes, rfl, rfl⟩, rfl, rfl⟩

/-- Parameters of different names have different keys. -/
theorem keys_nodup {params : List TypeVar} (h : (params.map TypeVar.name).Nodup) :
    (params.map TypeVar.key).Nodup := by
  rw [List.Nodup, List.pairwise_map] at h ⊢
  exact h.imp fun hne hkey => hne (VarKey.declared.inj hkey).2

/-- **The problem that inferring solves is tidy** for a closed target. -/
theorem stands_infer {k : Fragment} (hs : s.Regular k) (hl : s.lineageOf decl = some l)
    (hnames : (l.params.map TypeVar.name).Nodup) (htarget : target.Whole s k)
    (hvars : target.vars = []) (hm : m.Faithful s) (htame : m.Tame s k) (site : Site) :
    (inferProblem s site decl l.params target).Stands s k l.params m := by
  refine stands_start hs hl (keys_nodup hnames) hm htame fun c hc => ?_
  obtain rfl := List.mem_singleton.1 hc
  have hover : ∀ {C : Nat → Prop}, target.Over C := fun v hv => by
    rw [hvars] at hv
    cases hv
  refine { left := .inr ?_, right := htarget, leftKnown := known_own _ _ _, rightKnown := hover.known fun _ => id,
           clears := .inr (.inl hover), faces := fun _ => ⟨(fun h => by cases h), fun _ v hv => ?_⟩ }
  · rw [Ty.Regular, Arg.regularAll_iff, ownArgs, List.length_map]
    refine ⟨⟨l, hl, .inr rfl⟩, fun a ha => ?_⟩
    obtain ⟨v, _, rfl⟩ := List.mem_map.1 ha
    exact trivial
  · cases List.mem_singleton.1 hv

end Inference
end Generics
