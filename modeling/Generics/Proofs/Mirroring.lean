/-
# Questions under other names

Let a question be asked twice, the second time with other names for variables (`Renaming`) in the
catalog, in the memory and in what is asked. New captured variables are numbered by a counter that is
kept in the memory; it is ahead the second time, and no less than the number after which numbers are
ahead, so that the variables captured on the way get other names too. `Query.Mirrors` says that two
questions run side by side in this way: the memories stay apart by the renaming, and the outcomes agree
up to it. It holds of a sequence if it holds of the parts, so each function is followed through once, and
comparisons come last (`Setting.below_mirrors`).
-/

import Generics.Proofs.Renaming

namespace Generics

/-- The failures are of one kind, and if one of them says that a walk did not end, so does the other. -/
structure Failure.Alike (f g : Failure) : Prop where
  kind : f.kind? = g.kind?
  exhausted : f = .exhausted ↔ g = .exhausted

/-- Both answers are related, or both failures are alike. -/
inductive Corresponds {α β : Type} (R : α → β → Prop) : Except Failure α → Except Failure β → Prop
  | ok {a : α} {b : β} (h : R a b) : Corresponds R (.ok a) (.ok b)
  | error {f g : Failure} (h : f.Alike g) : Corresponds R (.error f) (.error g)

section Corresponds

variable {α β α' β' : Type} {R R' : α → β → Prop} {R'' : α' → β' → Prop} {o : Except Failure α}
  {o' : Except Failure β}

/-- What corresponds does so up to anything weaker. -/
theorem Corresponds.imp (ho : Corresponds R o o') (h : ∀ a b, R a b → R' a b) :
    Corresponds R' o o' := by
  cases ho with
  | ok hR => exact .ok (h _ _ hR)
  | error hf => exact .error hf

/-- Images of what corresponds correspond. -/
theorem Corresponds.map {g : α → α'} {g' : β → β'} (ho : Corresponds R o o')
    (h : ∀ a b, R a b → R'' (g a) (g' b)) : Corresponds R'' (o.map g) (o'.map g') := by
  cases ho with
  | ok hR => exact .ok (h _ _ hR)
  | error hf => exact .error hf

/-- What corresponds does so the other way round. -/
theorem Corresponds.flip (ho : Corresponds R o o') : Corresponds (fun b a => R a b) o' o := by
  cases ho with
  | ok hR => exact .ok hR
  | error hf => exact .error ⟨hf.kind.symm, hf.exhausted.symm⟩

end Corresponds

section Definitions

variable (ρ : Renaming)

/-- What is learnt about a declaration, with other names. -/
def Lineage.rename (l : Lineage) : Lineage :=
  ⟨l.decl, l.params.map (TypeVar.rename ρ), l.parents.map (Nominal.rename ρ)⟩

/-- What is learnt about a way up, with other names. -/
def Route.rename (r : Route) : Route := { r with parent := r.parent.map (Nominal.rename ρ) }

/-- The captured variable with other names. -/
def Captured.rename (x : Captured) : Captured := ⟨ρ.number x.id, x.upper.rename ρ, x.lower.rename ρ⟩

/-- The trail with other names. -/
def Trail.rename (trail : Trail) : Trail := trail.map fun e => (e.1.rename ρ, e.2)

/-- The memory with other names, and with the counter ahead. -/
def Memory.rename (m : Memory) : Memory :=
  { m with
    known := m.known.map (Lineage.rename ρ)
    routes := m.routes.map (Route.rename ρ)
    captured := m.captured.map (Captured.rename ρ)
    lastCaptured := m.lastCaptured + ρ.ahead }

/-- The parameter of a declaration with another name. -/
def Parameter.rename (decl : String) (p : Parameter) : Parameter :=
  ⟨ρ.name decl p.name, p.upper.rename ρ⟩

/-- The declaration with other names for its parameters, and for all variables in its bounds and
supertypes. -/
def Declaration.rename (d : Declaration) : Declaration :=
  ⟨d.name, d.params.map (Parameter.rename ρ d.name), d.parents.map (Nominal.rename ρ)⟩

/-- The catalog with other names. -/
def Catalog.rename (C : Catalog) : Catalog :=
  { C with decls := C.decls.map (Declaration.rename ρ), free := C.free.map (Ty.rename ρ) }

/-- The setting with other names. -/
def Setting.rename (s : Setting) : Setting := { s with catalog := s.catalog.rename ρ }

end Definitions

section Fixed

variable {ρ : Renaming}

/-- A lineage in which all names stay is the same. -/
theorem Lineage.rename_eq_self {l : Lineage} (hparams : ∀ v ∈ l.params, v.rename ρ = v)
    (hparents : ∀ n ∈ l.parents, n.rename ρ = n) : l.rename ρ = l := by
  rw [rename, map_eq_self hparams, map_eq_self hparents]

/-- A way up in which all names stay is the same. -/
theorem Route.rename_eq_self {r : Route} (h : ∀ n ∈ r.parent, n.rename ρ = n) : r.rename ρ = r := by
  obtain ⟨decl, ancestor, parent⟩ := r
  cases parent with
  | none => rfl
  | some n => rw [rename, Option.map_some, h n rfl]

/-- A captured variable in which all names stay is the same. -/
theorem Captured.rename_eq_self {x : Captured} (hid : ρ.number x.id = x.id)
    (hupper : x.upper.rename ρ = x.upper) (hlower : x.lower.rename ρ = x.lower) : x.rename ρ = x := by
  rw [rename, hid, hupper, hlower]

/-- A declaration in which all names stay is the same. -/
theorem Declaration.rename_eq_self {d : Declaration} (hnames : ∀ p ∈ d.params, ρ.name d.name p.name = p.name)
    (huppers : ∀ p ∈ d.params, p.upper.rename ρ = p.upper)
    (hparents : ∀ n ∈ d.parents, n.rename ρ = n) : d.rename ρ = d := by
  have hparams : ∀ p ∈ d.params, p.rename ρ d.name = p := fun p hp => by
    rw [Parameter.rename, hnames p hp, huppers p hp]
  rw [rename, map_eq_self hparams, map_eq_self hparents]

/-- A setting in which all names stay is the same. -/
theorem Setting.rename_eq_self {s : Setting} (hdecls : ∀ d ∈ s.catalog.decls, d.rename ρ = d)
    (hfree : ∀ t ∈ s.catalog.free, t.rename ρ = t) : s.rename ρ = s := by
  rw [rename, Catalog.rename, map_eq_self hdecls, map_eq_self hfree]

end Fixed

namespace Query

/-- Asked in memories that are apart by the renaming, where the counter is past the numbers that stay,
the questions leave memories that are apart in the same way, and their outcomes agree. -/
def Mirrors {α β : Type} (ρ : Renaming) (R : α → β → Prop) (q : Query α) (q' : Query β) : Prop :=
  ∀ m : Memory, ρ.after ≤ m.lastCaptured →
    ρ.after ≤ (q.outcome m).2.lastCaptured ∧ (q'.outcome (m.rename ρ)).2 = (q.outcome m).2.rename ρ ∧
      Corresponds R (q.outcome m).1 (q'.outcome (m.rename ρ)).1

namespace Mirrors

variable {α β γ δ : Type} {ρ : Renaming} {R R' : α → β → Prop} {S : γ → δ → Prop} {q : Query α}
  {q' : Query β}

/-- Related answers mirror each other. -/
theorem pure {a : α} {b : β} (h : R a b) : Mirrors ρ R (pure a) (pure b) :=
  fun _ hm => ⟨hm, rfl, .ok h⟩

/-- Failures that are alike mirror each other. -/
theorem throw {f g : Failure} (h : f.Alike g) : Mirrors ρ R (throw f) (throw g) :=
  fun _ hm => ⟨hm, rfl, .error h⟩

/-- The memories that are looked at are apart by the renaming. -/
theorem get : Mirrors ρ (fun m m' => m' = m.rename ρ ∧ ρ.after ≤ m.lastCaptured) get get :=
  fun _ hm => ⟨hm, rfl, .ok ⟨rfl, hm⟩⟩

/-- Changes that go along with the renaming mirror each other. -/
theorem modify {f g : Memory → Memory}
    (h : ∀ m, ρ.after ≤ m.lastCaptured → ρ.after ≤ (f m).lastCaptured ∧ g (m.rename ρ) = (f m).rename ρ) :
    Mirrors ρ (fun _ _ => True) (modify f) (modify g) :=
  fun m hm => ⟨(h m hm).1, (h m hm).2, .ok trivial⟩

/-- Questions one after the other mirror each other if both do. -/
theorem bind {p : α → Query γ} {p' : β → Query δ} (hq : Mirrors ρ R q q')
    (hp : ∀ a b, R a b → Mirrors ρ S (p a) (p' b)) : Mirrors ρ S (q >>= p) (q' >>= p') := by
  intro m hm
  obtain ⟨hlast, hmem, hout⟩ := hq m hm
  rw [outcome_bind, outcome_bind]
  rcases hfirst : q.outcome m with ⟨o, m₁⟩
  rcases hsecond : q'.outcome (m.rename ρ) with ⟨o', m₁'⟩
  rw [hfirst] at hlast hmem hout
  rw [hsecond] at hmem hout
  obtain rfl : m₁' = m₁.rename ρ := hmem
  cases hout with
  | ok h => exact hp _ _ h m₁ hlast
  | error h => exact ⟨hlast, rfl, .error h⟩

/-- Answers that mirror each other do so up to anything weaker. -/
theorem imp (hq : Mirrors ρ R q q') (h : ∀ a b, R a b → R' a b) : Mirrors ρ R' q q' := by
  intro m hm
  obtain ⟨hlast, hmem, hout⟩ := hq m hm
  exact ⟨hlast, hmem, hout.imp h⟩

/-- Choices by equivalent conditions mirror each other. -/
theorem ite {P P' : Prop} [Decidable P] [Decidable P'] {p : Query α} {p' : Query β} (hP : P' ↔ P)
    (hq : P → Mirrors ρ R q q') (hp : ¬ P → Mirrors ρ R p p') :
    Mirrors ρ R (if P then q else p) (if P' then q' else p') := by
  by_cases h : P
  · rw [if_pos h, if_pos (hP.2 h)]
    exact hq h
  · rw [if_neg h, if_neg (mt hP.1 h)]
    exact hp h

section Connectives

variable {first second first' second' : Query Bool}

/-- Two questions mirror each other together if both do. -/
theorem both (h₁ : Mirrors ρ (· = ·) first first') (h₂ : Mirrors ρ (· = ·) second second') :
    Mirrors ρ (· = ·) (both first second) (Query.both first' second') := by
  refine h₁.bind ?_
  rintro a _ rfl
  exact ite Iff.rfl (fun _ => h₂) fun _ => pure rfl

/-- Two questions of which the second is asked if needed mirror each other if both do. -/
theorem either (h₁ : Mirrors ρ (· = ·) first first') (h₂ : Mirrors ρ (· = ·) second second') :
    Mirrors ρ (· = ·) (either first second) (Query.either first' second') := by
  refine h₁.bind ?_
  rintro a _ rfl
  exact ite Iff.rfl (fun _ => pure rfl) fun _ => h₂

variable {g : α → β} {ask : α → Query Bool} {ask' : β → Query Bool}

/-- Asking of all elements is mirrored by asking of all renamed ones. -/
theorem all (h : ∀ a, Mirrors ρ (· = ·) (ask a) (ask' (g a))) (as : List α) :
    Mirrors ρ (· = ·) (all ask as) (Query.all ask' (as.map g)) := by
  induction as with
  | nil => exact pure rfl
  | cons a as ih => exact (h a).both ih

/-- Asking of some elements is mirrored by asking of some renamed ones. -/
theorem any (h : ∀ a, Mirrors ρ (· = ·) (ask a) (ask' (g a))) (as : List α) :
    Mirrors ρ (· = ·) (any ask as) (Query.any ask' (as.map g)) := by
  induction as with
  | nil => exact pure rfl
  | cons a as ih => exact (h a).either ih

/-- Looking for a first element is mirrored by looking among the renamed ones. -/
theorem first? (h : ∀ a, Mirrors ρ (· = ·) (ask a) (ask' (g a))) (as : List α) :
    Mirrors ρ (fun o o' => o' = o.map g) (first? ask as) (Query.first? ask' (as.map g)) := by
  induction as with
  | nil => exact pure rfl
  | cons a as ih =>
    refine (h a).bind ?_
    rintro r _ rfl
    exact ite Iff.rfl (fun _ => pure rfl) fun _ => ih

end Connectives

end Mirrors

/-- Failing for a malformed type is mirrored, whatever it says. -/
theorem malformed_mirrors {α β : Type} {ρ : Renaming} {R : α → β → Prop} (n n' : Nominal)
    (detail detail' : String) : Mirrors ρ R (malformed n detail) (malformed n' detail') :=
  .throw ⟨rfl, by simp⟩

/-- Noting that something was built is mirrored. -/
theorem noteBuilt_mirrors (ρ : Renaming) : Mirrors ρ (fun _ _ => True) noteBuilt noteBuilt :=
  .modify fun _ hm => ⟨hm, rfl⟩

section Building

variable {ρ : Renaming}

/-- The next site is the same up to its number. -/
theorem nextSite_rename (m : Memory) : nextSite (m.rename ρ) = (nextSite m).renumber ρ.number := rfl

/-- Replacing is mirrored, also if nothing is replaced. -/
theorem replace?_mirrors (σ : Subst) (t : Ty) :
    Mirrors ρ (fun o o' => o' = o.map (Ty.rename ρ)) (replace? σ t)
      (replace? (σ.rename ρ) (t.rename ρ)) := by
  have hempty : (σ.rename ρ).entries.isEmpty = σ.entries.isEmpty := by
    simp [Subst.rename]
  unfold replace?
  rw [hempty]
  refine .ite Iff.rfl (fun _ => .pure rfl) fun _ => Mirrors.get.bind ?_
  rintro m _ ⟨rfl, -⟩
  rw [nextSite_rename, Ty.subst?_rename]
  cases t.subst? σ (nextSite m) with
  | none => exact .pure rfl
  | some t' => exact (noteBuilt_mirrors ρ).bind fun _ _ _ => .pure rfl

/-- Replacing in a type is mirrored. -/
theorem replace_mirrors (σ : Subst) (t : Ty) :
    Mirrors ρ (fun u u' => u' = u.rename ρ) (replace σ t)
      (replace (σ.rename ρ) (t.rename ρ)) := by
  refine (replace?_mirrors σ t).bind ?_
  rintro o _ rfl
  refine .pure ?_
  cases o <;> rfl

/-- Replacing in arguments is mirrored. -/
theorem replaceIn_mirrors (σ : Subst) (n : Nominal) :
    Mirrors ρ (fun n₁ n₂ => n₂ = n₁.rename ρ) (replaceIn σ n)
      (replaceIn (σ.rename ρ) (n.rename ρ)) := by
  refine Mirrors.get.bind ?_
  rintro m _ ⟨rfl, -⟩
  rw [nextSite_rename, Nominal.subst?_rename]
  cases n.subst? σ (nextSite m) with
  | none => exact .pure rfl
  | some n' => exact (noteBuilt_mirrors ρ).bind fun _ _ _ => .pure rfl

/-- Building a type is mirrored. -/
theorem build_mirrors (decl : String) (args : List Arg) :
    Mirrors ρ (fun n n' => n' = n.rename ρ) (build decl args)
      (build decl (args.map (Arg.rename ρ))) := by
  refine Mirrors.get.bind ?_
  rintro m _ ⟨rfl, -⟩
  exact (noteBuilt_mirrors ρ).bind fun _ _ _ => .pure rfl

end Building

end Query

section Catalog

variable {ρ : Renaming} {C : Catalog}

/-- The parameters of a renamed declaration are the renamed ones. -/
theorem Declaration.vars_rename (d : Declaration) :
    (d.rename ρ).vars = d.vars.map (TypeVar.rename ρ) := by
  refine List.ext_getElem? fun i => ?_
  simp [Declaration.vars, Declaration.rename, Parameter.rename, TypeVar.rename, Function.comp_def]

/-- Declarations are found under the same names after renaming. -/
theorem Catalog.find?_rename (name : String) :
    (C.rename ρ).find? name = (C.find? name).map (Declaration.rename ρ) := by
  simp only [Catalog.find?, Catalog.rename, List.find?_map, Function.comp_def, Declaration.rename]

/-- The bound of a renamed variable is the renamed bound. -/
theorem Catalog.upper_rename (v : TypeVar) : (C.rename ρ).upper (v.rename ρ) = (C.upper v).rename ρ := by
  have hbound : (C.rename ρ).bound? (v.rename ρ) = (C.bound? v).map (Ty.rename ρ) := by
    obtain ⟨decl, name, slot⟩ := v
    cases slot with
    | param i =>
      simp only [Catalog.bound?, TypeVar.rename, Catalog.find?_rename]
      cases C.find? decl with
      | none => rfl
      | some d => simp [Declaration.rename, Parameter.rename, Function.comp_def]
    | free n => simp [Catalog.bound?, TypeVar.rename, Catalog.rename]
  rw [Catalog.upper, hbound, Catalog.upper]
  cases C.bound? v <;> simp

/-- The same declarations can be entered after renaming. -/
theorem Setting.enterable_rename (s : Setting) : (s.rename ρ).enterable = s.enterable := by
  simp [Setting.enterable, Setting.rename, Catalog.rename, Declaration.rename, Function.comp_def]

end Catalog

namespace Setting

open Query

variable {s : Setting} {ρ : Renaming}

/-- Reading a lineage is mirrored. -/
theorem readLineage_mirrors (decl : String) :
    Mirrors ρ (fun l l' => l' = l.rename ρ) (s.readLineage decl) ((s.rename ρ).readLineage decl) := by
  have hfind : (s.rename ρ).catalog.find? decl = (s.catalog.find? decl).map (Declaration.rename ρ) :=
    Catalog.find?_rename decl
  have hfault : ∀ part, (s.rename ρ).catalog.fault? decl part = s.catalog.fault? decl part :=
    fun _ => rfl
  unfold readLineage
  rw [hfind, hfault, hfault]
  cases s.catalog.find? decl with
  | none => exact .ite Iff.rfl (fun _ => .pure rfl) fun _ => .throw ⟨rfl, Iff.rfl⟩
  | some d =>
    refine Mirrors.bind (.modify fun _ hm => ⟨hm, rfl⟩) fun _ _ _ => ?_
    cases s.catalog.fault? decl .params with
    | some reason => exact .throw ⟨rfl, Iff.rfl⟩
    | none =>
      cases s.catalog.fault? decl .parents with
      | some reason => exact .throw ⟨rfl, Iff.rfl⟩
      | none =>
        refine .ite (by simp [Declaration.rename]) (fun _ => .pure ?_) fun _ => .pure ?_
        · simp [Lineage.rename, Declaration.vars_rename]
        · rw [Lineage.rename, Declaration.vars_rename]
          rfl

/-- Lineages are remembered under the same names after renaming. -/
theorem lineage?_rename (m : Memory) (decl : String) :
    (m.rename ρ).lineage? decl = (m.lineage? decl).map (Lineage.rename ρ) := by
  simp only [Memory.lineage?, Memory.rename, List.find?_map, Function.comp_def, Lineage.rename]

/-- Asking for a lineage is mirrored. -/
theorem lineage_mirrors (decl : String) :
    Mirrors ρ (fun l l' => l' = l.rename ρ) (s.lineage decl) ((s.rename ρ).lineage decl) := by
  refine Mirrors.get.bind ?_
  rintro m _ ⟨rfl, -⟩
  rw [lineage?_rename]
  cases m.lineage? decl with
  | some l => exact .pure rfl
  | none =>
    refine (readLineage_mirrors decl).bind ?_
    rintro l _ rfl
    exact Mirrors.bind (.modify fun _ hm => ⟨hm, rfl⟩) fun _ _ _ => .pure rfl

/-- Asking for parameters is mirrored. -/
theorem params_mirrors (decl : String) :
    Mirrors ρ (fun ps ps' => ps' = ps.map (TypeVar.rename ρ)) (s.params decl)
      ((s.rename ρ).params decl) := by
  refine (lineage_mirrors decl).bind ?_
  rintro l _ rfl
  exact .pure rfl

/-- Whether a declaration is raw stays so after renaming. -/
theorem isRaw_mirrors (n : Nominal) :
    Mirrors ρ (· = ·) (s.isRaw n) ((s.rename ρ).isRaw (n.rename ρ)) := by
  refine .ite (by simp [Nominal.rename]) (fun _ => ?_) fun _ => .pure rfl
  refine (params_mirrors n.decl).bind ?_
  rintro ps _ rfl
  exact .pure (by simp)

/-- Whether a walk comes to a declaration stays so after renaming. -/
theorem walksTo_mirrors (goal : String) (remaining stack : List String) :
    Mirrors ρ (· = ·) (s.walksTo goal remaining stack)
      ((s.rename ρ).walksTo goal remaining stack) := by
  fun_induction s.walksTo goal remaining stack with
  | case1 remaining stack hstack =>
    rw [walksTo, s.enterable_rename, hstack]
    exact .pure rfl
  | case2 remaining stack rest hstack =>
    rw [walksTo, s.enterable_rename, hstack]
    dsimp only
    rw [if_pos rfl]
    exact .pure rfl
  | case3 remaining stack d rest hstack hd ih =>
    rw [walksTo, s.enterable_rename, hstack]
    dsimp only
    rw [if_neg hd]
    refine (lineage_mirrors d).bind ?_
    rintro l _ rfl
    have hparents : (l.rename ρ).parents.map Nominal.decl = l.parents.map Nominal.decl := by
      simp [Lineage.rename, Nominal.rename]
    rw [hparents]
    split
    · next hmem => exact ih l hmem
    · exact .pure rfl

/-- Seeking the way up is mirrored. -/
theorem seek?_mirrors (decl ancestor : String) :
    Mirrors ρ (fun o o' => o' = o.map (Nominal.rename ρ)) (s.seek? decl ancestor)
      ((s.rename ρ).seek? decl ancestor) := by
  refine (lineage_mirrors decl).bind ?_
  rintro l _ rfl
  refine Mirrors.first? (g := Nominal.rename ρ) (fun n => ?_) l.parents
  rw [reaches, reaches, s.enterable_rename]
  exact walksTo_mirrors ancestor s.enterable [n.decl]

/-- Ways up are remembered between the same declarations after renaming. -/
theorem route?_rename (m : Memory) (decl ancestor : String) :
    (m.rename ρ).route? decl ancestor = (m.route? decl ancestor).map (Route.rename ρ) := by
  simp only [Memory.route?, Memory.rename, List.find?_map, Function.comp_def, Route.rename]

/-- Asking for the way up is mirrored. -/
theorem leadsTo?_mirrors (decl ancestor : String) :
    Mirrors ρ (fun o o' => o' = o.map (Nominal.rename ρ)) (s.leadsTo? decl ancestor)
      ((s.rename ρ).leadsTo? decl ancestor) := by
  refine Mirrors.get.bind ?_
  rintro m _ ⟨rfl, -⟩
  rw [route?_rename]
  cases m.route? decl ancestor with
  | some r => exact .pure rfl
  | none =>
    refine (seek?_mirrors decl ancestor).bind ?_
    rintro parent _ rfl
    exact Mirrors.bind (.modify fun _ hm => ⟨hm, rfl⟩) fun _ _ _ => .pure rfl

/-- Whether a declaration inherits stays so after renaming. -/
theorem inherits_mirrors (decl ancestor : String) :
    Mirrors ρ (· = ·) (s.inherits decl ancestor) ((s.rename ρ).inherits decl ancestor) := by
  refine .ite Iff.rfl (fun _ => .pure rfl) fun _ => .ite Iff.rfl (fun _ => ?_) fun _ => ?_
  · exact (lineage_mirrors decl).bind fun _ _ _ => .pure rfl
  · refine (leadsTo?_mirrors decl ancestor).bind ?_
    rintro o _ rfl
    exact .pure (by simp)

/-- Asking for the types of arguments is mirrored. -/
theorem argTypes_mirrors (n : Nominal) (as : List Arg) :
    Mirrors ρ (fun ts ts' => ts' = ts.map (Ty.rename ρ)) (argTypes n as)
      (argTypes (n.rename ρ) (as.map (Arg.rename ρ))) := by
  induction as with
  | nil => exact .pure rfl
  | cons a as ih =>
    cases a with
    | wild u l =>
      rw [List.map_cons, Arg.rename_wild]
      exact malformed_mirrors _ _ _ _
    | type t =>
      rw [List.map_cons, Arg.rename_type]
      refine ih.bind ?_
      rintro ts _ rfl
      exact .pure rfl

/-- Assigning arguments to parameters is mirrored. -/
theorem assignment_mirrors (n : Nominal) :
    Mirrors ρ (fun σ σ' => σ' = σ.rename ρ) (s.assignment n)
      ((s.rename ρ).assignment (n.rename ρ)) := by
  refine (params_mirrors n.decl).bind ?_
  rintro ps _ rfl
  refine .ite (by simp [Nominal.rename]) (fun _ => malformed_mirrors _ _ _ _) fun _ => ?_
  refine (argTypes_mirrors n n.args).bind ?_
  rintro ts _ rfl
  exact .pure (Subst.zip_rename ps ts)

/-- Climbing is mirrored. -/
theorem climb_mirrors (ancestor : String) (steps : Nat) (n : Nominal) :
    Mirrors ρ (fun o o' => o' = o.map (Nominal.rename ρ)) (s.climb ancestor steps n)
      ((s.rename ρ).climb ancestor steps (n.rename ρ)) := by
  induction steps generalizing n with
  | zero =>
    rw [climb, climb]
    exact .ite Iff.rfl (fun _ => .pure rfl) fun _ => .throw ⟨rfl, Iff.rfl⟩
  | succ steps ih =>
    rw [climb, climb]
    refine .ite Iff.rfl (fun _ => .pure rfl) fun _ => (leadsTo?_mirrors n.decl ancestor).bind ?_
    rintro o _ rfl
    cases o with
    | none => exact .pure rfl
    | some parent =>
      refine .ite (by simp [Nominal.rename]) (fun _ => (isRaw_mirrors n).bind ?_) fun _ => ?_
      · rintro raw _ rfl
        exact .ite Iff.rfl (fun _ => ih (.raw parent.decl)) fun _ => ih parent
      · refine (assignment_mirrors n).bind ?_
        rintro σ _ rfl
        refine (replaceIn_mirrors σ parent).bind ?_
        rintro n' _ rfl
        exact ih n'

/-- Seeing a declaration as an ancestor is mirrored. -/
theorem seenAs_mirrors (n : Nominal) (ancestor : String) :
    Mirrors ρ (fun o o' => o' = o.map (Nominal.rename ρ)) (s.seenAs n ancestor)
      ((s.rename ρ).seenAs (n.rename ρ) ancestor) := by
  refine .ite Iff.rfl (fun _ => ?_) fun _ => ?_
  · exact (lineage_mirrors n.decl).bind fun _ _ _ => .pure rfl
  · have hsteps : (s.rename ρ).catalog.decls.length = s.catalog.decls.length := List.length_map _
    rw [hsteps]
    exact climb_mirrors ancestor _ n

/-- The next number is ahead too. -/
theorem number_next {last : Nat} (h : ρ.after ≤ last) :
    ρ.number (last + 1) = last + ρ.ahead + 1 := by
  rw [Renaming.number, lift_of_lt (by omega)]
  omega

/-- Captured arguments commute with renaming, with the counter ahead. -/
theorem captureArgs_rename {last : Nat} (h : ρ.after ≤ last) (as : List Arg) :
    captureArgs (last + ρ.ahead) (as.map (Arg.rename ρ)) =
      (captureArgs last as).map (Arg.rename ρ) := by
  induction as generalizing last with
  | nil => rfl
  | cons a as ih =>
    cases a with
    | type t => simp [captureArgs, ih h]
    | wild u l =>
      have hrest := ih (Nat.le_add_right_of_le h : ρ.after ≤ last + 1)
      rw [Nat.add_right_comm] at hrest
      simp [captureArgs, hrest, number_next h]

/-- Capturing bounds is mirrored. -/
theorem captureBounds_mirrors (σ : Subst) {last : Nat} (h : ρ.after ≤ last) (ps : List TypeVar)
    (as : List Arg) :
    Mirrors ρ (fun xs xs' => xs' = xs.map (Captured.rename ρ))
      (s.captureBounds σ last ps as)
      ((s.rename ρ).captureBounds (σ.rename ρ) (last + ρ.ahead) (ps.map (TypeVar.rename ρ))
        (as.map (Arg.rename ρ))) := by
  induction as generalizing last ps with
  | nil => cases ps <;> exact .pure rfl
  | cons a as ih =>
    cases ps with
    | nil => exact .pure rfl
    | cons p ps =>
      cases a with
      | type t =>
        rw [List.map_cons, List.map_cons, Arg.rename_type, captureBounds, captureBounds]
        exact ih h ps
      | wild u l =>
        have hupper := replace_mirrors (ρ := ρ) σ (s.catalog.upper p)
        rw [← Catalog.upper_rename] at hupper
        have hrest := ih (Nat.le_add_right_of_le h : ρ.after ≤ last + 1) ps
        rw [Nat.add_right_comm] at hrest
        rw [List.map_cons, List.map_cons, Arg.rename_wild, captureBounds, captureBounds]
        refine hupper.bind ?_
        rintro bound _ rfl
        refine hrest.bind ?_
        rintro xs _ rfl
        have hsite : (⟨.capture (last + ρ.ahead + 1), []⟩ : Site) =
            Site.renumber ρ.number ⟨.capture (last + 1), []⟩ := by
          rw [Site.renumber, Place.renumber, number_next h]
        refine .pure ?_
        rw [List.map_cons, Captured.rename, hsite, Ty.meetBounds_rename, number_next h]

/-- Capturing is mirrored. -/
theorem capture_mirrors (n : Nominal) :
    Mirrors ρ (fun n₁ n₂ => n₂ = n₁.rename ρ) (s.capture n)
      ((s.rename ρ).capture (n.rename ρ)) := by
  have hwild : (n.rename ρ).hasWild = n.hasWild := Arg.any_isWild_rename _ n.args
  have hcount : (n.rename ρ).args.countP Arg.isWild = n.args.countP Arg.isWild := by
    simp [Nominal.rename, List.countP_map, Function.comp_def]
  unfold capture
  rw [hwild, hcount]
  refine .ite Iff.rfl (fun _ => (params_mirrors n.decl).bind ?_) fun _ => .pure rfl
  rintro ps _ rfl
  refine .ite (by simp [Nominal.rename]) (fun _ => malformed_mirrors _ _ _ _) fun _ => ?_
  refine Mirrors.get.bind ?_
  rintro m _ ⟨rfl, hm⟩
  -- the counter goes up by as much, and the new variables get the numbers after it
  have hargs := captureArgs_rename (ρ := ρ) hm n.args
  refine Mirrors.bind (.modify fun m' _ => ⟨Nat.le_add_right_of_le hm, ?_⟩) fun _ _ _ => ?_
  · simp only [Memory.rename, Nat.add_right_comm]
  · dsimp only [Memory.rename, Nominal.rename]
    rw [hargs, Arg.types_rename, Subst.zip_rename]
    refine (captureBounds_mirrors _ hm ps n.args).bind ?_
    rintro xs _ rfl
    refine Mirrors.bind (.modify fun m' hm' => ⟨hm', ?_⟩) fun _ _ _ => .pure rfl
    simp [Memory.rename]

/-- Asking for a supertype is mirrored. -/
theorem supertypeAs_mirrors (n : Nominal) (ancestor : String) :
    Mirrors ρ (fun o o' => o' = o.map (Nominal.rename ρ)) (s.supertypeAs n ancestor)
      ((s.rename ρ).supertypeAs (n.rename ρ) ancestor) := by
  refine (capture_mirrors n).bind ?_
  rintro n' _ rfl
  exact seenAs_mirrors n' ancestor

/-- Captured variables are found under the renamed numbers. -/
theorem captured?_rename (m : Memory) (i : Nat) : (m.rename ρ).captured? (ρ.number i) =
    (m.captured? i).map (Captured.rename ρ) := by
  have hid : ∀ x : Captured, (ρ.number x.id == ρ.number i) = (x.id == i) := fun x => by
    rw [Bool.eq_iff_iff, beq_iff_eq, beq_iff_eq, ρ.number_injective.eq_iff]
  simp only [Memory.captured?, Memory.rename, List.find?_map, Function.comp_def, Captured.rename, hid]

/-- Asking for an upper bound is mirrored. -/
theorem upper_mirrors (v : Var) : Mirrors ρ (fun t t' => t' = t.rename ρ) (s.upper v)
    ((s.rename ρ).upper (v.rename ρ)) := by
  cases v with
  | declared v => exact .pure (Catalog.upper_rename v)
  | captured i =>
    refine Mirrors.get.bind ?_
    rintro m _ ⟨rfl, -⟩
    refine .pure ?_
    rw [Memory.upper, captured?_rename, Memory.upper]
    cases m.captured? i <;> simp [Captured.rename]

/-- Asking for a lower bound is mirrored. -/
theorem lower_mirrors (s : Setting) (v : Var) :
    Mirrors ρ (fun t t' => t' = t.rename ρ) (s.lower v)
      ((s.rename ρ).lower (v.rename ρ)) := by
  cases v with
  | declared v => exact .pure (Ty.rename_null _).symm
  | captured i =>
    refine Mirrors.get.bind ?_
    rintro m _ ⟨rfl, -⟩
    refine .pure ?_
    rw [Memory.lower, captured?_rename, Memory.lower]
    cases m.captured? i <;> simp [Captured.rename]

section Comparisons

variable {sub sub' : Ty → Ty → Query Bool}
  (hsub : ∀ a b, Mirrors ρ (· = ·) (sub a b) (sub' (a.rename ρ) (b.rename ρ)))
include hsub

/-- Equivalence is mirrored if comparing is. -/
theorem equivalentBy_mirrors (a b : Ty) : Mirrors ρ (· = ·) (equivalentBy sub a b)
    (equivalentBy sub' (a.rename ρ) (b.rename ρ)) := by
  refine .ite ?_ (fun _ => .pure rfl) fun _ => (hsub a b).both (hsub b a)
  rw [Ty.equal_rename]

/-- Containment of arguments is mirrored if comparing is. -/
theorem containsBy_mirrors (outer inner : Arg) : Mirrors ρ (· = ·) (containsBy sub outer inner)
    (containsBy sub' (outer.rename ρ) (inner.rename ρ)) := by
  cases outer <;> cases inner <;> simp only [Arg.rename_type, Arg.rename_wild, containsBy]
  · exact equivalentBy_mirrors hsub _ _
  · exact .pure rfl
  · exact (hsub _ _).both (hsub _ _)
  · exact (hsub _ _).both (hsub _ _)

/-- Containment of lists of arguments is mirrored if comparing is. -/
theorem containsAllBy_mirrors : ∀ outers inners : List Arg,
    Mirrors ρ (· = ·) (containsAllBy sub outers inners)
      (containsAllBy sub' (outers.map (Arg.rename ρ)) (inners.map (Arg.rename ρ)))
  | [], [] => .pure rfl
  | [], _ :: _ => .pure rfl
  | _ :: _, [] => .pure rfl
  | outer :: outers, inner :: inners =>
    (containsBy_mirrors hsub outer inner).both (containsAllBy_mirrors outers inners)

/-- Comparing declarations is mirrored if comparing their arguments is. -/
theorem nominalBelowBy_mirrors (a b : Nominal) : Mirrors ρ (· = ·) (s.nominalBelowBy sub a b)
    ((s.rename ρ).nominalBelowBy sub' (a.rename ρ) (b.rename ρ)) := by
  refine (inherits_mirrors a.decl b.decl).bind ?_
  rintro r _ rfl
  refine .ite Iff.rfl (fun _ => ?_) fun _ => .pure rfl
  refine .ite (by simp [Nominal.rename]) (fun _ => .pure rfl) fun _ => (isRaw_mirrors a).bind ?_
  rintro raw _ rfl
  refine .ite Iff.rfl (fun _ => .pure rfl) fun _ => (supertypeAs_mirrors a b.decl).bind ?_
  rintro o _ rfl
  cases o with
  | none => exact .pure rfl
  | some n =>
    refine .ite (by simp [Nominal.rename]) (fun _ => ?_) fun _ => .pure rfl
    exact containsAllBy_mirrors hsub b.args n.args

/-- Comparing arrays is mirrored if comparing their components is. -/
theorem arrayBelowBy_mirrors (a b : Ty) : Mirrors ρ (· = ·) (arrayBelowBy sub a b)
    (arrayBelowBy sub' (a.rename ρ) (b.rename ρ)) := by
  refine .ite (by simp) (fun _ => .pure ?_) fun _ => hsub a b
  rw [Bool.eq_iff_iff, beq_iff_eq, beq_iff_eq, Ty.rename_inj]

end Comparisons

/-- What was gone through is the same after renaming. -/
theorem contains_trail (trail : Trail) (key : VarKey) (side : Side) :
    (trail.rename ρ).contains (key.rename ρ, side) =
      trail.contains (key, side) := by
  rw [Bool.eq_iff_iff, List.contains_iff_mem, List.contains_iff_mem]
  constructor
  · intro h
    obtain ⟨⟨key', side'⟩, hmem, heq⟩ := List.mem_map.1 h
    obtain ⟨hkey, hside⟩ := Prod.mk.inj heq
    have hkey : key' = key := (VarKey.rename_inj).1 hkey
    exact hkey ▸ hside ▸ hmem
  · exact fun h => List.mem_map.2 ⟨(key, side), h, rfl⟩

section Within

variable {depth : Nat}
  (ih : ∀ trail a b, Mirrors ρ (· = ·) (s.belowWithin depth trail a b)
    ((s.rename ρ).belowWithin depth (trail.rename ρ) (a.rename ρ) (b.rename ρ)))
include ih

/-- Comparing with a lower bound is mirrored. -/
theorem descends_mirrors (trail : Trail) (a b : Ty) :
    Mirrors ρ (· = ·) (s.descends depth trail a b)
      ((s.rename ρ).descends depth (trail.rename ρ) (a.rename ρ)
        (b.rename ρ)) := by
  cases b with
  | var w =>
    rw [Ty.rename_var, descends, descends, Var.key_rename, contains_trail]
    refine .ite Iff.rfl (fun _ => .pure rfl) fun _ => (lower_mirrors s w).bind ?_
    rintro t _ rfl
    exact ih ((w.key, .lower) :: trail) a t
  | _ =>
    simp only [Ty.rename_prim, Ty.rename_null, Ty.rename_nominal, Ty.rename_array,
      Ty.rename_inter, descends]
    exact .pure rfl

omit ih in
/-- Which types can only be equal stays so after renaming. -/
theorem unlike_rename (ρ : Renaming) (a b : Ty) :
    unlike (a.rename ρ) (b.rename ρ) = unlike a b := by
  cases a <;> cases b <;> simp [unlike]

/-- A type that is no intersection and no variable is compared with one that is no intersection. -/
theorem belowWithin_rigid_mirrors (trail : Trail) {a b : Ty} (hne : a ≠ b) (hnull : a ≠ .null)
    (ha : a.isInter = false) (hvar : ∀ v, a ≠ .var v) (hb : b.isInter = false) :
    Mirrors ρ (· = ·) (s.belowWithin (depth + 1) trail a b)
      ((s.rename ρ).belowWithin (depth + 1) (trail.rename ρ) (a.rename ρ)
        (b.rename ρ)) := by
  have hne' := mt (Ty.rename_inj (ρ := ρ)).1 hne
  have hunlike := unlike_rename ρ a b
  cases h : unlike a b with
  | true =>
    rw [belowWithin_unlike hne h, belowWithin_unlike hne' (hunlike.trans h)]
    exact .pure rfl
  | false =>
  have hsub := ih []
  cases b with
  | inter => cases hb
  | var w =>
    have hdown := descends_mirrors ih trail a (.var w)
    rw [Ty.rename_var] at hdown ⊢
    rw [belowWithin_to_var hnull ha hvar, belowWithin_to_var]
    · exact hdown
    · rwa [Ne, Ty.rename_eq_null]
    · rwa [Ty.isInter_rename]
    · cases a <;> simp at hvar ⊢
  | nominal sb db ab =>
    cases a with
    | nominal sa da aa =>
      rw [Ty.rename_nominal, Ty.rename_nominal] at hne' ⊢
      rw [belowWithin_nominal hne, belowWithin_nominal hne']
      exact nominalBelowBy_mirrors hsub ⟨sa, da, aa⟩ ⟨sb, db, ab⟩
    | array e =>
      rw [Ty.rename_array, Ty.rename_nominal, belowWithin_array_nominal, belowWithin_array_nominal]
      exact .pure (by simp [isArrayParent, Setting.rename])
    | _ => simp_all [unlike, Ty.isInter]
  | array e' =>
    cases a with
    | array e =>
      rw [Ty.rename_array, Ty.rename_array] at hne' ⊢
      rw [belowWithin_array (by simpa using hne), belowWithin_array (by simpa using hne')]
      exact arrayBelowBy_mirrors hsub e e'
    | _ => simp_all [unlike, Ty.isInter]
  | _ => cases a <;> simp_all [unlike, Ty.isInter]

/-- Comparing a variable is mirrored if comparing its bound is. -/
theorem belowWithin_var_mirrors (trail : Trail) {v : Var} {b : Ty} (hne : .var v ≠ b)
    (hb : b.isInter = false) :
    Mirrors ρ (· = ·) (s.belowWithin (depth + 1) trail (.var v) b)
      ((s.rename ρ).belowWithin (depth + 1) (trail.rename ρ) ((Ty.var v).rename ρ)
        (b.rename ρ)) := by
  have hlower := descends_mirrors ih trail (.var v) b
  have hne' : Ty.var (v.rename ρ) ≠ b.rename ρ := by
    rw [← Ty.rename_var, Ne, Ty.rename_inj]
    exact hne
  rw [Ty.rename_var] at hlower ⊢
  rw [belowWithin_var hb hne, belowWithin_var (by rw [Ty.isInter_rename]; exact hb) hne',
    ← Ty.rename_var, Ty.equal_rename, Var.key_rename, contains_trail]
  refine .ite Iff.rfl (fun _ => .pure rfl) fun _ => .ite Iff.rfl (fun _ => hlower) fun _ => ?_
  refine Mirrors.either ((upper_mirrors v).bind ?_) hlower
  rintro t _ rfl
  exact ih ((v.key, .upper) :: trail) t b

end Within

/-- **The answer of a comparison is the same**, with nesting up to any depth. -/
theorem belowWithin_mirrors (depth : Nat) (trail : Trail) (a b : Ty) :
    Mirrors ρ (· = ·) (s.belowWithin depth trail a b)
      ((s.rename ρ).belowWithin depth (trail.rename ρ) (a.rename ρ)
        (b.rename ρ)) := by
  -- the cases are those of the comparison, in the order in which it looks at them
  induction depth generalizing trail a b with
  | zero => exact .throw ⟨rfl, Iff.rfl⟩
  | succ depth ih =>
  by_cases hne : a = b
  · rw [hne, belowWithin_self, belowWithin_self]
    exact .pure rfl
  have hne' : a.rename ρ ≠ b.rename ρ :=
    mt (Ty.rename_inj).1 hne
  by_cases hnull : a = .null
  · rw [hnull, Ty.rename_null, belowWithin_of_null, belowWithin_of_null]
    exact .pure rfl
  cases hb : b.isInter with
  | true =>
    cases b with
    | inter st ms =>
      have hnull' : a.rename ρ ≠ .null := mt (Ty.rename_eq_null _).1 hnull
      rw [Ty.rename_inter] at hne' ⊢
      rw [belowWithin_members hnull hne, belowWithin_members hnull' hne']
      exact .all (fun m => ih trail a m) ms
    | _ => cases hb
  | false =>
  have hb' : (b.rename ρ).isInter = false := by rwa [Ty.isInter_rename]
  cases a with
  | inter st ms =>
    rw [Ty.rename_inter]
    cases ms with
    | nil =>
      rw [List.map_nil, belowWithin_top hb, belowWithin_top hb', ← Ty.rename_object ρ]
      exact ih trail .object b
    | cons m ms =>
      have hlower := descends_mirrors ih trail (.inter st (m :: ms)) b
      rw [Ty.rename_inter, List.map_cons] at hlower
      rw [List.map_cons, belowWithin_inter hb, belowWithin_inter hb', ← List.map_cons]
      exact Mirrors.either (.any (fun m => ih trail m b) (m :: ms)) hlower
  | var v => exact belowWithin_var_mirrors ih trail hne hb
  | _ => exact belowWithin_rigid_mirrors ih trail hne hnull rfl (by simp) hb

/-- Comparing types is mirrored. -/
theorem below_mirrors (a b : Ty) : Mirrors ρ (· = ·) (s.below a b)
    ((s.rename ρ).below (a.rename ρ) (b.rename ρ)) :=
  belowWithin_mirrors s.depth [] a b

/-- Whether types are equivalent is mirrored. -/
theorem equivalent_mirrors (a b : Ty) : Mirrors ρ (· = ·) (s.equivalent a b)
    ((s.rename ρ).equivalent (a.rename ρ) (b.rename ρ)) :=
  equivalentBy_mirrors below_mirrors a b

end Setting

end Generics
