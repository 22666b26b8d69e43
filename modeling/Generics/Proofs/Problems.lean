/-
# Problems and their constraints

A problem is `Tidy` when its pending constraints are tidy and what is filed with an unknown is on
that unknown, sorted by relation, and mentions clean variables only. A problem `Leads` to another
one, with more captured, when unknowns stay with the solutions they have, and when the constraints of
the first problem hold under all realizations as soon as those of the second one do: no constraint
is lost. The types that the unknowns have in the end must mention no variable for that; a captured
variable in a solution can be compared where it was captured only.

Here the reduction of one pending constraint is shown to lead from tidy problems to tidy problems.
-/

import Generics.Inference.Search
import Generics.Proofs.Solutions
import Mathlib.Data.List.Forall2
import Mathlib.Data.List.Nodup

namespace Generics
namespace Inference

open Query

variable {s : Setting} {k : Fragment} {U : TypeVar → Prop} {μ ν : Marks} {m m' : Memory}
  {τ : Subst} {σ : Var → Ty}

/-! ### Related lists -/

/-- What stands in a list is related to what stands in a list related to it. -/
theorem exists_of_forall₂ {α β : Type} {R : α → β → Prop} {as : List α} {bs : List β}
    (h : List.Forall₂ R as bs) {a : α} (ha : a ∈ as) : ∃ b ∈ bs, R a b := by
  induction h with
  | nil => cases ha
  | cons hab _ ih =>
    rcases List.mem_cons.1 ha with rfl | ha
    · exact ⟨_, List.mem_cons_self, hab⟩
    · obtain ⟨b, hb, hab'⟩ := ih ha
      exact ⟨b, List.mem_cons_of_mem _ hb, hab'⟩

/-- The same from right to left. -/
theorem exists_of_forall₂_right {α β : Type} {R : α → β → Prop} {as : List α} {bs : List β}
    (h : List.Forall₂ R as bs) {b : β} (hb : b ∈ bs) : ∃ a ∈ as, R a b :=
  exists_of_forall₂ h.flip hb

/-! ### Replacing in constraints -/

namespace Constraint

/-- The second constraint is the first one with variables replaced. -/
structure Becomes (τ : Subst) (c c' : Constraint) : Prop where
  lhs : Ty.Replaced τ c.lhs c'.lhs
  rhs : Ty.Replaced τ c.rhs c'.rhs
  rel : c'.rel = c.rel

/-- Replacing variables in a constraint builds types only. -/
theorem replace_builds {c c' : Constraint} (h : (c.replace τ).Answers m c' m') :
    c.Becomes τ c' ∧ m.Builds m' := by
  obtain ⟨lhs, m₁, hlhs, h⟩ := answers_bind.1 h
  obtain ⟨hl, hb₁⟩ := replace?_builds hlhs
  obtain ⟨rhs, m₂, hrhs, h⟩ := answers_bind.1 h
  obtain ⟨hr, hb₂⟩ := replace?_builds hrhs
  cases lhs with
  | none =>
    cases rhs with
    | none =>
      obtain ⟨rfl, rfl⟩ := answers_pure.1 h
      exact ⟨⟨hl, hr, rfl⟩, hb₁.trans hb₂⟩
    | some rhs =>
      obtain ⟨rfl, rfl⟩ := answers_pure.1 h
      exact ⟨⟨hl, hr, rfl⟩, hb₁.trans hb₂⟩
  | some lhs =>
    obtain ⟨rfl, rfl⟩ := answers_pure.1 h
    exact ⟨⟨hl, hr, rfl⟩, hb₁.trans hb₂⟩

/-- Replacing variables in a constraint keeps what the memory knows. -/
theorem replace_answers {c c' : Constraint} (hm : m.Faithful s)
    (h : (c.replace τ).Answers m c' m') : c.Becomes τ c' ∧ m.Stays s m' :=
  (replace_builds h).imp_right fun hbuilds => hbuilds.stays hm

/-- Replacing variables in a constraint always answers. -/
theorem replace_total (τ : Subst) (c : Constraint) (m : Memory) :
    ∃ c' m', (c.replace τ).Answers m c' m' := by
  obtain ⟨lhs, m₁, hlhs⟩ := replace?_total τ c.lhs m
  obtain ⟨rhs, m₂, hrhs⟩ := replace?_total τ c.rhs m₁
  cases lhs <;> cases rhs <;>
    exact ⟨_, _, answers_bind.2 ⟨_, _, hlhs, answers_bind.2 ⟨_, _, hrhs, rfl⟩⟩⟩

/-- Replacing variables in constraints builds types only, and does it one by one. -/
theorem replaceAll_builds {cs cs' : List Constraint} (h : (replaceAll τ cs).Answers m cs' m') :
    List.Forall₂ (Becomes τ) cs cs' ∧ m.Builds m' := by
  induction cs generalizing cs' m m' with
  | nil =>
    obtain ⟨rfl, rfl⟩ := answers_pure.1 h
    exact ⟨.nil, .refl _⟩
  | cons c cs ih =>
    obtain ⟨c', m₁, hc, h⟩ := answers_bind.1 h
    obtain ⟨hbec, hb₁⟩ := replace_builds hc
    obtain ⟨rest, m₂, hrest, h⟩ := answers_bind.1 h
    obtain ⟨hall, hb₂⟩ := ih hrest
    obtain ⟨rfl, rfl⟩ := answers_pure.1 h
    exact ⟨.cons hbec hall, hb₁.trans hb₂⟩

/-- Replacing variables in constraints keeps what the memory knows. -/
theorem replaceAll_answers {cs cs' : List Constraint} (hm : m.Faithful s)
    (h : (replaceAll τ cs).Answers m cs' m') :
    List.Forall₂ (Becomes τ) cs cs' ∧ m.Stays s m' :=
  (replaceAll_builds h).imp_right fun hbuilds => hbuilds.stays hm

/-- Replacing variables in constraints always answers. -/
theorem replaceAll_total (τ : Subst) (cs : List Constraint) (m : Memory) :
    ∃ cs' m', (replaceAll τ cs).Answers m cs' m' := by
  induction cs generalizing m with
  | nil => exact ⟨_, _, rfl⟩
  | cons c cs ih =>
    obtain ⟨c', m₁, hc⟩ := replace_total τ c m
    obtain ⟨rest, m₂, hrest⟩ := ih m₁
    exact ⟨_, _, answers_bind.2 ⟨_, _, hc, answers_bind.2 ⟨_, _, hrest, rfl⟩⟩⟩

/-- A tidy constraint stays tidy when clean types replace its variables. -/
theorem Becomes.tidy {c c' : Constraint} (h : c.Becomes τ c') (hτ : τ.Clean s k μ.clean)
    (hsub : ∀ i, μ.clean i → μ.used i) (ht : s.Tidy k U μ c.lhs c.rhs) :
    s.Tidy k U μ c'.lhs c'.rhs := h.lhs.tidy h.rhs hτ hsub ht

/-- **A constraint holds if it does after solutions were put in it**, provided that these solutions are
the given ones. -/
theorem Becomes.holds {Γ : Scope} {C : Nat → Prop} {c c' : Constraint} (h : c.Becomes τ c')
    (hτ : τ.Agrees U σ) (hclean : τ.Clean s k C) (hc : c'.Holds (Good s k Γ U σ)) :
    c.Holds (Good s k Γ U σ) := by
  obtain ⟨⟨lhs, rel, rhs⟩, origin⟩ := c
  obtain ⟨⟨lhs', rel', rhs'⟩, origin'⟩ := c'
  obtain rfl : rel' = rel := h.rel
  cases rel' with
  | below => exact h.lhs.good h.rhs hτ hclean hc
  | equal => exact ⟨h.lhs.good h.rhs hτ hclean hc.1, h.rhs.good h.lhs hτ hclean hc.2⟩
  | above => exact h.rhs.good h.lhs hτ hclean hc

/-- A constraint that is read from the other side holds as it did. -/
theorem flip_holds {P : Ty → Ty → Prop} {c : Constraint} : c.flip.Holds P ↔ c.Holds P := by
  obtain ⟨⟨lhs, rel, rhs⟩, origin⟩ := c
  cases rel with
  | below => exact Iff.rfl
  | equal => exact And.comm
  | above => exact Iff.rfl

end Constraint

/-! ### Unknowns -/

namespace Unknown

/-- All that is filed with an unknown. -/
def filed (u : Unknown) : List Constraint := u.upper ++ u.equal ++ u.lower

/-- The constraint is on the variable, and what it compares the variable with is regular, no
intersection, and mentions clean captured variables only. -/
structure Fits (s : Setting) (k : Fragment) (U : TypeVar → Prop) (μ : Marks) (v : TypeVar)
    (c : Constraint) : Prop where
  lhs : c.lhs = .var (.declared v)
  regular : c.rhs.Regular s k
  flat : c.rhs.isInter = false
  known : c.rhs.Known U μ.clean

/-- What is filed is sorted by relation, solutions are clean, and nothing is filed with closed
unknowns. -/
structure Tidy (s : Setting) (k : Fragment) (U : TypeVar → Prop) (μ : Marks) (u : Unknown) :
    Prop where
  upper : ∀ c ∈ u.upper, c.rel = .below
  equal : ∀ c ∈ u.equal, c.rel = .equal
  lower : ∀ c ∈ u.lower, c.rel = .above
  fits : ∀ c ∈ u.filed, Fits s k U μ u.var c
  solution : ∀ t, u.solution = some t → t.Regular s k ∧ t.isInter = false ∧ t.Over μ.clean
  closed : u.closed = true → u.solution.isSome = true ∧ u.filed = []

/-- What a variable is compared with still fits when more is marked. -/
theorem Fits.mono {v : TypeVar} {c : Constraint} (h : Fits s k U μ v c) (hle : μ.Le ν) :
    Fits s k U ν v c := ⟨h.lhs, h.regular, h.flat, h.known.mono hle.clean⟩

/-- An unknown stays tidy when more is marked. -/
theorem Tidy.mono {u : Unknown} (h : u.Tidy s k U μ) (hle : μ.Le ν) : u.Tidy s k U ν where
  upper := h.upper
  equal := h.equal
  lower := h.lower
  fits c hc := (h.fits c hc).mono hle
  solution t ht := by
    obtain ⟨hr, hf, ho⟩ := h.solution t ht
    exact ⟨hr, hf, ho.mono hle.clean⟩
  closed := h.closed

/-- The unknown is the same one, and a solution stays. -/
structure Extends (u u' : Unknown) : Prop where
  var : u'.var = u.var
  solution : ∀ t, u.solution = some t → u'.solution = some t

/-- An unknown extends itself. -/
theorem Extends.refl (u : Unknown) : u.Extends u := ⟨rfl, fun _ => id⟩

/-- Extending twice is extending. -/
theorem Extends.trans {u₁ u₂ u₃ : Unknown} (h₁ : u₁.Extends u₂) (h₂ : u₂.Extends u₃) :
    u₁.Extends u₃ := ⟨h₂.var.trans h₁.var, fun t ht => h₂.solution t (h₁.solution t ht)⟩

/-- The unknown with a constraint filed by its relation. -/
def add (u : Unknown) (c : Constraint) : Unknown :=
  match c.rel with
  | .below => { u with upper := u.upper ++ [c] }
  | .equal => { u with equal := u.equal ++ [c] }
  | .above => { u with lower := u.lower ++ [c] }

/-- Filing either drops a constraint that `Null` is below the unknown, or adds it. -/
theorem file_eq_ok {u u' : Unknown} {c : Constraint} (h : u.file c = .ok u') :
    (c.rhs = .null ∧ c.rel = .above ∧ u' = u) ∨ u' = u.add c := by
  unfold file at h
  split at h
  · next hnull =>
    split at h
    · next habove =>
      injection h with h
      exact .inl ⟨hnull, habove, h.symm⟩
    · cases h
  · right
    rw [add]
    cases hrel : c.rel <;> rw [hrel] at h <;> exact (Except.ok.inj h).symm

/-- What is filed after adding a constraint is what was filed, and that constraint. -/
theorem mem_filed_add {u : Unknown} {c d : Constraint} :
    d ∈ (u.add c).filed ↔ d = c ∨ d ∈ u.filed := by
  unfold add filed
  split <;> simp only [List.mem_append, List.mem_singleton] <;> tauto

/-- Adding a constraint extends an unknown. -/
theorem add_extends (u : Unknown) (c : Constraint) : u.Extends (u.add c) := by
  unfold add
  split <;> exact ⟨rfl, fun _ => id⟩

/-- Adding a constraint changes no solution. -/
theorem add_solution (u : Unknown) (c : Constraint) :
    (u.add c).solution = u.solution ∧ (u.add c).closed = u.closed := by
  unfold add
  split <;> exact ⟨rfl, rfl⟩

/-- **Where a constraint is added to one of some unknowns**, each of them has the variable and the solution of
one there was, and the constraint is all that is new. -/
theorem mem_add {us pre post : List Unknown} {u x : Unknown} {c : Constraint} (hus : us = pre ++ u :: post)
    (hx : x ∈ pre ++ u.add c :: post) :
    ∃ y ∈ us, y.var = x.var ∧ y.solution = x.solution ∧ ∀ d ∈ x.filed, d = c ∨ d ∈ y.filed := by
  subst hus
  rcases List.mem_append.1 hx with hx | hx
  · exact ⟨x, List.mem_append_left _ hx, rfl, rfl, fun _ => .inr⟩
  rcases List.mem_cons.1 hx with rfl | hx
  · exact ⟨u, List.mem_append_right _ List.mem_cons_self, (u.add_extends c).var.symm,
      (u.add_solution c).1.symm, fun _ => mem_filed_add.1⟩
  · exact ⟨x, List.mem_append_right _ (List.mem_cons_of_mem _ hx), rfl, rfl, fun _ => .inr⟩

/-- An open unknown stays tidy when a fitting constraint is added. -/
theorem Tidy.add {u : Unknown} {c : Constraint} (h : u.Tidy s k U μ)
    (hc : Fits s k U μ u.var c) (hopen : u.closed = false) : (u.add c).Tidy s k U μ := by
  have hvar := (u.add_extends c).var
  have hrest := u.add_solution c
  refine ⟨?_, ?_, ?_, fun d hd => ?_, by rw [hrest.1]; exact h.solution, ?_⟩
  · unfold Unknown.add
    split
    · next hrel =>
      intro d hd
      rcases List.mem_append.1 hd with hd | hd
      · exact h.upper d hd
      · rw [List.mem_singleton.1 hd, hrel]
    · exact h.upper
    · exact h.upper
  · unfold Unknown.add
    split
    · exact h.equal
    · next hrel =>
      intro d hd
      rcases List.mem_append.1 hd with hd | hd
      · exact h.equal d hd
      · rw [List.mem_singleton.1 hd, hrel]
    · exact h.equal
  · unfold Unknown.add
    split
    · exact h.lower
    · exact h.lower
    · next hrel =>
      intro d hd
      rcases List.mem_append.1 hd with hd | hd
      · exact h.lower d hd
      · rw [List.mem_singleton.1 hd, hrel]
  · rw [hvar]
    rcases mem_filed_add.1 hd with rfl | hd
    · exact hc
    · exact h.fits d hd
  · rw [hrest.2, hopen]
    simp

/-- A constraint is filed with the first unknown of the key. -/
theorem fileWith_first {key : VarKey} {c : Constraint} {us us' : List Unknown}
    (h : fileWith key c us = .ok us') (hkey : us.any (fun u => u.var.key == key) = true) :
    ∃ pre u post u', us = pre ++ u :: post ∧ us' = pre ++ u' :: post ∧ u.var.key = key ∧
      u.file c = .ok u' ∧ ∀ x ∈ pre, x.var.key ≠ key := by
  induction us generalizing us' with
  | nil => cases hkey
  | cons u us ih =>
    rw [fileWith] at h
    split at h
    · next hu =>
      cases hfile : u.file c with
      | error f =>
        rw [hfile] at h
        cases h
      | ok u' =>
        rw [hfile] at h
        injection h with h
        exact ⟨[], u, us, u', rfl, h.symm, hu, hfile, fun x hx => by cases hx⟩
    · next hu =>
      have hrest : us.any (fun u => u.var.key == key) = true := by
        simpa [hu] using hkey
      cases hwith : fileWith key c us with
      | error f =>
        rw [hwith] at h
        cases h
      | ok us₁ =>
        rw [hwith] at h
        injection h with h
        obtain ⟨pre, u₀, post, u', rfl, rfl, hu₀, hfile, hpre⟩ := ih hwith hrest
        exact ⟨u :: pre, u₀, post, u', rfl, h.symm, hu₀, hfile, List.forall_mem_cons.2 ⟨hu, hpre⟩⟩

/-- Filing by key changes one unknown, and that one has the key. -/
theorem fileWith_eq_ok {key : VarKey} {c : Constraint} {us us' : List Unknown}
    (h : fileWith key c us = .ok us') (hkey : us.any (fun u => u.var.key == key) = true) :
    ∃ pre u post u', us = pre ++ u :: post ∧ us' = pre ++ u' :: post ∧ u.var.key = key ∧
      u.file c = .ok u' := by
  obtain ⟨pre, u, post, u', hus, hus', hu, hfile, -⟩ := fileWith_first h hkey
  exact ⟨pre, u, post, u', hus, hus', hu, hfile⟩

end Unknown

/-! ### Problems -/

namespace Problem

variable {vars : List TypeVar} {p p' : Problem}

/-- The unknowns are the given variables, and all constraints are tidy. -/
structure Tidy (s : Setting) (k : Fragment) (vars : List TypeVar) (μ : Marks) (p : Problem) :
    Prop where
  domain : p.unknowns.map Unknown.var = vars
  distinct : (vars.map TypeVar.key).Nodup
  pending : ∀ c ∈ p.pending, s.Tidy k (· ∈ vars) μ c.lhs c.rhs
  unknowns : ∀ u ∈ p.unknowns, u.Tidy s k (· ∈ vars) μ

/-- The solutions so far are those that `σ` has, and mention no variable. -/
def Agrees (σ : Var → Ty) (p : Problem) : Prop :=
  ∀ u ∈ p.unknowns, ∀ t, u.solution = some t → t.vars = [] ∧ t.shape = σ (.declared u.var)

/-- All constraints hold, whether pending or filed. -/
def Holds (P : Ty → Ty → Prop) (p : Problem) : Prop :=
  (∀ c ∈ p.pending, c.Holds P) ∧ ∀ u ∈ p.unknowns, ∀ c ∈ u.filed, c.Holds P

/-- Unknowns stay with their solutions, and no constraint is lost. -/
structure Leads (s : Setting) (k : Fragment) (vars : List TypeVar) (m m' : Memory)
    (p p' : Problem) : Prop where
  kept : List.Forall₂ Unknown.Extends p.unknowns p'.unknowns
  holds : ∀ σ, p'.Agrees σ → p'.Holds (Good s k m'.scope (· ∈ vars) σ) →
    p.Holds (Good s k m.scope (· ∈ vars) σ)

/-- Unknowns extend themselves. -/
theorem forall₂_extends_refl (us : List Unknown) : List.Forall₂ Unknown.Extends us us :=
  List.forall₂_same.2 fun u _ => .refl u

/-- Extending unknowns twice is extending them. -/
theorem forall₂_extends_trans {us₁ us₂ us₃ : List Unknown}
    (h₁ : List.Forall₂ Unknown.Extends us₁ us₂) (h₂ : List.Forall₂ Unknown.Extends us₂ us₃) :
    List.Forall₂ Unknown.Extends us₁ us₃ := by
  induction h₁ generalizing us₃ with
  | nil => exact h₂
  | cons h _ ih =>
    cases h₂ with
    | cons h' hs => exact .cons (h.trans h') (ih hs)

/-- Extending unknowns keeps their variables and the order of these. -/
theorem forall₂_extends_vars {us us' : List Unknown} (h : List.Forall₂ Unknown.Extends us us') :
    us'.map Unknown.var = us.map Unknown.var := by
  induction h with
  | nil => rfl
  | cons h _ ih => rw [List.map_cons, List.map_cons, h.var, ih]

/-- A problem that goes on agrees with a solution only if the problem it comes from does. -/
theorem Agrees.of_kept (h : List.Forall₂ Unknown.Extends p.unknowns p'.unknowns)
    (hp : p'.Agrees σ) : p.Agrees σ := by
  intro u hu t ht
  obtain ⟨i, hi, rfl⟩ := List.getElem_of_mem hu
  have hi' : i < p'.unknowns.length := h.length_eq ▸ hi
  have hext := h.get hi hi'
  obtain ⟨hvars, hshape⟩ := hp p'.unknowns[i] (List.getElem_mem hi') t (hext.solution t ht)
  exact ⟨hvars, hshape.trans (congrArg (fun v => σ (.declared v)) hext.var)⟩

/-- Leading on twice is leading on. -/
theorem Leads.trans {m₁ m₂ m₃ : Memory} {p₁ p₂ p₃ : Problem} (h₁ : Leads s k vars m₁ m₂ p₁ p₂)
    (h₂ : Leads s k vars m₂ m₃ p₂ p₃) : Leads s k vars m₁ m₃ p₁ p₃ where
  kept := forall₂_extends_trans h₁.kept h₂.kept
  holds σ hp hholds := h₁.holds σ (hp.of_kept h₂.kept) (h₂.holds σ hp hholds)

namespace Tidy

/-- Unknowns of a tidy problem have the given variables. -/
theorem mem_vars (h : p.Tidy s k vars μ) {u : Unknown} (hu : u ∈ p.unknowns) : u.var ∈ vars := by
  rw [← h.domain]
  exact List.mem_map_of_mem hu

/-- The key of an unknown determines the variable. -/
theorem var_eq (h : p.Tidy s k vars μ) {v w : TypeVar} (hv : v ∈ vars) (hw : w ∈ vars)
    (hkey : v.key = w.key) : v = w := List.inj_on_of_nodup_map h.distinct hv hw hkey

/-- The given variables are the unknowns of the problem. -/
theorem isUnknown (h : p.Tidy s k vars μ) {w : TypeVar} (hw : w ∈ vars) :
    p.isUnknown w.key = true := by
  rw [← h.domain] at hw
  obtain ⟨u, hu, rfl⟩ := List.mem_map.1 hw
  exact List.any_eq_true.2 ⟨u, hu, by simp⟩

/-- Filing a constraint with a given variable changes the unknown of that variable. -/
theorem file_eq_ok (h : p.Tidy s k vars μ) {w : TypeVar} {c : Constraint} {us : List Unknown} (hw : w ∈ vars)
    (hfile : Unknown.fileWith w.key c p.unknowns = .ok us) :
    ∃ pre u post u', p.unknowns = pre ++ u :: post ∧ us = pre ++ u' :: post ∧ u ∈ p.unknowns ∧ u.var = w ∧
      u.file c = .ok u' := by
  obtain ⟨pre, u, post, u', hus, hus', hkey, hu'⟩ := Unknown.fileWith_eq_ok hfile (h.isUnknown hw)
  have hu : u ∈ p.unknowns := by
    rw [hus]
    exact List.mem_append_right _ List.mem_cons_self
  exact ⟨pre, u, post, u', hus, hus', hu, h.var_eq (h.mem_vars hu) hw hkey, hu'⟩

end Tidy

/-! ### The solutions so far -/

/-- What solutions say of a variable is the solution of an unknown with its key. -/
theorem lookup_solutionsWhere {cond : Unknown → Bool} {v : Var} {t : Ty}
    (h : (p.solutionsWhere cond).lookup v = some t) :
    ∃ u ∈ p.unknowns, cond u = true ∧ u.solution = some t ∧ (Var.declared u.var).key = v.key := by
  rw [solutionsWhere, Subst.lookup_insertAll] at h
  cases hfind : (p.unknowns.filterMap fun u =>
      if cond u then u.solution.map (Var.declared u.var, ·) else none).reverse.find?
        fun pair => pair.1.key == v.key with
  | none =>
    rw [hfind] at h
    cases h
  | some pair =>
    rw [hfind, Option.map_some, Option.some_or] at h
    injection h with h
    subst h
    have hkey := List.find?_some hfind
    obtain ⟨u, hu, hpair⟩ := List.mem_filterMap.1
      (List.mem_reverse.1 (List.mem_of_find?_eq_some hfind))
    split at hpair
    · next hcond =>
      obtain ⟨t, ht, rfl⟩ := Option.map_eq_some_iff.1 hpair
      exact ⟨u, hu, hcond, ht, by simpa using hkey⟩
    · cases hpair

/-- An unknown that is solved has its solution among the solutions. -/
theorem lookup_solutionsWhere_isSome (cond : Unknown → Bool) {u : Unknown} (hu : u ∈ p.unknowns)
    (hcond : cond u = true) (hsol : u.solution.isSome = true) {v : Var}
    (hkey : (Var.declared u.var).key = v.key) : ((p.solutionsWhere cond).lookup v).isSome = true := by
  obtain ⟨t, ht⟩ := Option.isSome_iff_exists.1 hsol
  rw [solutionsWhere, Subst.lookup_insertAll, Option.isSome_or, Option.isSome_map,
    Bool.or_eq_true, List.find?_isSome]
  refine .inl ⟨(Var.declared u.var, t), ?_, by simpa using hkey⟩
  rw [List.mem_reverse, List.mem_filterMap]
  exact ⟨u, hu, by rw [if_pos hcond, ht]; rfl⟩

/-- The solutions of a tidy problem are clean. -/
theorem Tidy.clean (h : p.Tidy s k vars μ) (cond : Unknown → Bool) :
    (p.solutionsWhere cond).Clean s k μ.clean := by
  intro v t hlook
  obtain ⟨u, hu, _, ht, hkey⟩ := lookup_solutionsWhere hlook
  refine ⟨?_, (h.unknowns u hu).solution t ht⟩
  cases v with
  | declared w => exact ⟨w, rfl⟩
  | captured i => cases hkey

/-- The solutions of a problem agree with those it leads to. -/
theorem Tidy.agrees (h : p.Tidy s k vars μ) (hp : p.Agrees σ) (cond : Unknown → Bool) :
    (p.solutionsWhere cond).Agrees (· ∈ vars) σ := by
  intro w t hlook hw
  obtain ⟨u, hu, _, ht, hkey⟩ := lookup_solutionsWhere hlook
  rw [← h.var_eq (h.mem_vars hu) hw hkey]
  exact hp u hu t ht

/-! ### Reducing the oldest constraint -/

/-- A type that is an unknown is a declared variable with the key of one. -/
theorem unknown?_eq_some {t : Ty} {key : VarKey} (h : p.unknown? t = some key) :
    ∃ w, t = .var (.declared w) ∧ w.key = key ∧ p.isUnknown key = true := by
  rw [unknown?, Option.filter_eq_some_iff] at h
  obtain ⟨h, hkey⟩ := h
  obtain ⟨w, hw, rfl⟩ := Option.map_eq_some_iff.1 h
  refine ⟨w, ?_, rfl, hkey⟩
  cases t with
  | var v =>
    cases v with
    | declared v =>
      injection hw with hw
      rw [hw]
    | captured i => cases hw
  | _ => cases hw

/-- A given variable is an unknown. -/
theorem unknown?_of_mem (hp : p.Tidy s k vars μ) {w : TypeVar} (hw : w ∈ vars) :
    p.unknown? (.var (.declared w)) = some w.key := by
  rw [unknown?, Option.filter_eq_some_iff]
  exact ⟨rfl, hp.isUnknown hw⟩

/-- A constraint is looked at with the closed unknowns replaced; then it is filed with the unknown
that it is on, or it is on no unknown but one that faces an intersection. -/
theorem reduce_answers {c : Constraint} {r : Reduction} (hm : m.Faithful s)
    (hp : p.Tidy s k vars μ) (hsub : ∀ i, μ.clean i → μ.used i)
    (hc : s.Tidy k (· ∈ vars) μ c.lhs c.rhs) (h : (p.reduce s c).Answers m r m') :
    ∃ c' m₁, c.Becomes (p.solutionsWhere Unknown.closed) c' ∧ m.Stays s m₁ ∧
      ((∃ w d, (d = c' ∨ d = c'.flip) ∧ d.lhs = .var (.declared w) ∧ d.rhs.isInter = false ∧
          r = p.file w.key d ∧ m' = m₁) ∨
        (Setting.FacesInter c'.toClaim ∧ (c'.reduceRigid s).Answers m₁ r m')) := by
  obtain ⟨c', m₁, hrep, h⟩ := answers_bind.1 h
  obtain ⟨hbec, hst⟩ := Constraint.replace_answers hm hrep
  have htidy := hbec.tidy (hp.clean _) hsub hc
  refine ⟨c', m₁, hbec, hst, ?_⟩
  cases hlhs : p.unknown? c'.lhs with
  | some key =>
    obtain ⟨w, hw, rfl, _⟩ := unknown?_eq_some hlhs
    simp only [hlhs] at h
    split at h
    · next hinter =>
      refine .inr ⟨⟨fun _ _ => hinter, fun v hv => ?_⟩, h⟩
      rw [hv] at hinter
      cases hinter
    · next hinter =>
      obtain ⟨rfl, rfl⟩ := answers_pure.1 h
      exact .inl ⟨w, c', .inl rfl, hw, Bool.eq_false_iff.2 hinter, rfl, rfl⟩
  | none =>
    have hleft : ∀ v, c'.lhs ≠ .var (.declared v) := by
      intro v hv
      have hknown := htidy.leftKnown
      rw [hv] at hknown hlhs
      rw [unknown?_of_mem hp hknown.unknown] at hlhs
      cases hlhs
    simp only [hlhs] at h
    cases hrhs : p.unknown? c'.rhs with
    | some key =>
      obtain ⟨w, hw, rfl, _⟩ := unknown?_eq_some hrhs
      simp only [hrhs] at h
      split at h
      · next hinter => exact .inr ⟨⟨fun v hv => absurd hv (hleft v), fun _ _ => hinter⟩, h⟩
      · next hinter =>
        obtain ⟨rfl, rfl⟩ := answers_pure.1 h
        exact .inl ⟨w, c'.flip, .inr rfl, hw, Bool.eq_false_iff.2 hinter, rfl, rfl⟩
    | none =>
      simp only [hrhs] at h
      refine .inr ⟨⟨fun v hv => absurd hv (hleft v), fun v hv => ?_⟩, h⟩
      have hknown := htidy.rightKnown
      rw [hv] at hknown hrhs
      rw [unknown?_of_mem hp hknown.unknown] at hrhs
      cases hrhs

/-- Reducing a tidy constraint always has an outcome. -/
theorem reduce_total (hs : s.Regular k) (hacyc : s.Acyclic) {c : Constraint} (hm : m.Faithful s)
    (hp : p.Tidy s k vars μ) (hsub : ∀ i, μ.clean i → μ.used i)
    (hc : s.Tidy k (· ∈ vars) μ c.lhs c.rhs) : ∃ r m', (p.reduce s c).Answers m r m' := by
  obtain ⟨c', m₁, hrep⟩ := Constraint.replace_total (p.solutionsWhere Unknown.closed) c m
  obtain ⟨hbec, hst⟩ := Constraint.replace_answers hm hrep
  have htidy := hbec.tidy (hp.clean _) hsub hc
  obtain ⟨r, m₂, hr⟩ := Setting.reduceRigid_total hs hacyc c' hst.faithful htidy.left htidy.right
  have hrest : ∀ (inter : Bool) (key : VarKey) (d : Constraint), ∃ r m',
      (if inter then c'.reduceRigid s else pure (p.file key d)).Answers m₁ r m' := by
    intro inter key d
    cases inter with
    | true => exact ⟨r, m₂, hr⟩
    | false => exact ⟨_, m₁, rfl⟩
  cases hlhs : p.unknown? c'.lhs with
  | some key =>
    obtain ⟨r, m', h⟩ := hrest c'.rhs.isInter key c'
    exact ⟨r, m', answers_bind.2 ⟨c', m₁, hrep, by simpa only [hlhs] using h⟩⟩
  | none =>
    cases hrhs : p.unknown? c'.rhs with
    | some key =>
      obtain ⟨r, m', h⟩ := hrest c'.lhs.isInter key c'.flip
      exact ⟨r, m', answers_bind.2 ⟨c', m₁, hrep, by simpa only [hlhs, hrhs] using h⟩⟩
    | none => exact ⟨r, m₂, answers_bind.2 ⟨c', m₁, hrep, by simpa only [hlhs, hrhs] using hr⟩⟩

/-- A tidy constraint on an unknown can be filed with it. -/
theorem fits_of_tidy {d : Constraint} {w : TypeVar} (hd : s.Tidy k U μ d.lhs d.rhs)
    (hlhs : d.lhs = .var (.declared w)) (hflat : d.rhs.isInter = false) :
    Unknown.Fits s k U μ w d := by
  refine ⟨hlhs, ?_, hflat, ?_⟩
  · rcases hd.right with hp | hreg
    · cases k with
      | plain =>
        cases hrhs : d.rhs with
        | prim q => rw [Ty.Regular]
        | _ =>
          rw [hrhs] at hp
          cases hp
      | full =>
        have := (hd.faces rfl).2 hp (.declared w)
        rw [hlhs] at this
        exact absurd List.mem_cons_self this
    · exact hreg
  · rcases hd.clears with h | h | ⟨_, h, _⟩
    · rw [hlhs] at h
      obtain ⟨i, hi, _⟩ := h (.declared w) (by simp [Ty.vars])
      cases hi
    · exact h.known fun _ => id
    · exact h

/-- An unknown that occurs after replacing is not closed. -/
theorem open_of_becomes {c c' : Constraint} (hp : p.Tidy s k vars μ)
    (h : c.Becomes (p.solutionsWhere Unknown.closed) c') {u : Unknown} (hu : u ∈ p.unknowns)
    (hmem : .declared u.var ∈ c'.lhs.vars ∨ .declared u.var ∈ c'.rhs.vars) : u.closed = false := by
  have hnone : ∀ {t t' : Ty}, Ty.Replaced (p.solutionsWhere Unknown.closed) t t' →
      .declared u.var ∈ t'.vars → (p.solutionsWhere Unknown.closed).lookup (.declared u.var) = none := by
    intro t t' ht hv
    rcases ht.vars hv with ⟨_, hlook⟩ | ⟨w, _, x, hlook, hx⟩
    · exact hlook
    · obtain ⟨i, hi, _⟩ := (hp.clean _ w x hlook).2.2.2 _ hx
      cases hi
  have hlook := hmem.elim (hnone h.lhs) (hnone h.rhs)
  cases hclosed : u.closed with
  | false => rfl
  | true =>
    have := lookup_solutionsWhere_isSome Unknown.closed hu hclosed
      ((hp.unknowns u hu).closed hclosed).1 (v := .declared u.var) rfl
    rw [hlook] at this
    cases this

/-- A constraint that holds in one memory holds in every one that knows more. -/
theorem holds_mono {Γ Δ : Scope} (hle : Γ.Le Δ) {c : Claim} (h : c.Holds (Good s k Δ U σ)) :
    c.Holds (Good s k Γ U σ) := h.mono fun _ _ => Good.mono hle

/-- What comes of advancing a problem is tidy, and nothing is lost. -/
def Follows (s : Setting) (k : Fragment) (vars : List TypeVar) (ν : Marks) (m m' : Memory)
    (p : Problem) : Progress → Prop
  | .further p' => p'.Tidy s k vars ν ∧ Leads s k vars m m' p p'
  | .fork ps => ∀ p' ∈ ps, p'.Tidy s k vars ν ∧ Leads s k vars m m' p p'
  | .done o => ∀ types, o.solutions = some types → ∃ p', p'.Tidy s k vars ν ∧
      Leads s k vars m m' p p' ∧ (∀ P, p'.Holds P) ∧
        List.Forall₂ (fun u t => u.solution = some t) p'.unknowns types

/-- A constraint may be dropped if it holds as soon as those pending afterwards do. -/
theorem leads_of_pending {c : Constraint} {rest : List Constraint} (hpend : p.pending = c :: rest)
    (hle : m.scope.Le m'.scope) (hunknowns : p'.unknowns = p.unknowns)
    (hrest : ∀ d ∈ rest, d ∈ p'.pending)
    (hc : ∀ σ, p.Agrees σ → (∀ d ∈ p'.pending, d.Holds (Good s k m'.scope (· ∈ vars) σ)) →
      c.Holds (Good s k m.scope (· ∈ vars) σ)) : Leads s k vars m m' p p' where
  kept := by
    rw [hunknowns]
    exact forall₂_extends_refl _
  holds σ hp hholds := by
    rw [Agrees, hunknowns] at hp
    refine ⟨fun d hd => ?_, fun u hu d hd => ?_⟩
    · rw [hpend] at hd
      rcases List.mem_cons.1 hd with rfl | hd
      · exact hc σ hp hholds.1
      · exact holds_mono hle (hholds.1 d (hrest d hd))
    · exact holds_mono hle (hholds.2 u (by rwa [hunknowns]) d hd)

/-- Filing a constraint with the unknown that it is on. -/
theorem file_leads {c c' d : Constraint} {rest : List Constraint} {w : TypeVar}
    {us : List Unknown} (hp : p.Tidy s k vars μ) (hpend : p.pending = c :: rest)
    (hst : m.scope = m'.scope) (hbec : c.Becomes (p.solutionsWhere Unknown.closed) c')
    (htidy : s.Tidy k (· ∈ vars) μ c'.lhs c'.rhs) (hd : d = c' ∨ d = c'.flip)
    (hlhs : d.lhs = .var (.declared w)) (hflat : d.rhs.isInter = false)
    (hfile : Unknown.fileWith w.key d p.unknowns = .ok us) :
    ({ p with pending := rest, unknowns := us } : Problem).Tidy s k vars μ ∧
      Leads s k vars m m' p { p with pending := rest, unknowns := us } := by
  have hdtidy : s.Tidy k (· ∈ vars) μ d.lhs d.rhs := by
    rcases hd with rfl | rfl
    · exact htidy
    · exact htidy.symm
  have hw : w ∈ vars := by
    have hknown := hdtidy.leftKnown
    rw [hlhs] at hknown
    exact hknown.unknown
  obtain ⟨pre, u, post, u', hus, rfl, hu, rfl, hu'⟩ := hp.file_eq_ok hw hfile
  have hopen : u.closed = false := by
    refine open_of_becomes hp hbec hu ?_
    have hmem : Var.declared u.var ∈ d.lhs.vars := by
      rw [hlhs]
      exact List.mem_cons_self
    rcases hd with rfl | rfl
    · exact .inl hmem
    · exact .inr hmem
  have hext : u.Extends u' ∧ u'.Tidy s k (· ∈ vars) μ ∧ (∀ e ∈ u.filed, e ∈ u'.filed) ∧
      (d ∈ u'.filed ∨ d.rhs = .null ∧ d.rel = .above) := by
    rcases Unknown.file_eq_ok hu' with ⟨hnull, habove, rfl⟩ | rfl
    · exact ⟨.refl u', hp.unknowns u' hu, fun _ => id, .inr ⟨hnull, habove⟩⟩
    · exact ⟨u.add_extends d, (hp.unknowns u hu).add (fits_of_tidy hdtidy hlhs hflat) hopen,
        fun e he => Unknown.mem_filed_add.2 (.inr he), .inl (Unknown.mem_filed_add.2 (.inl rfl))⟩
  obtain ⟨hext, hutidy, hfiled, hdfiled⟩ := hext
  have hkept : List.Forall₂ Unknown.Extends p.unknowns (pre ++ u' :: post) := by
    rw [hus]
    exact List.rel_append (forall₂_extends_refl pre) (.cons hext (forall₂_extends_refl post))
  have hmem : ∀ x, x ∈ pre ++ u' :: post ↔ x = u' ∨ x ∈ pre ++ post := by
    intro x
    simp only [List.mem_append, List.mem_cons]
    tauto
  have hold : ∀ x ∈ pre ++ post, x ∈ p.unknowns := by
    intro x hx
    rw [hus, List.mem_append, List.mem_cons]
    rcases List.mem_append.1 hx with hx | hx
    · exact .inl hx
    · exact .inr (.inr hx)
  refine ⟨⟨?_, hp.distinct, fun e he => ?_, fun x hx => ?_⟩, hkept, fun σ hagree hholds => ?_⟩
  · exact (forall₂_extends_vars hkept).trans hp.domain
  · exact hp.pending e (by rw [hpend]; exact List.mem_cons_of_mem _ he)
  · rcases (hmem x).1 hx with rfl | hx
    · exact hutidy
    · exact hp.unknowns x (hold x hx)
  · have hdholds : d.Holds (Good s k m.scope (· ∈ vars) σ) := by
      rcases hdfiled with hdfiled | ⟨hnull, habove⟩
      · rw [hst]
        exact hholds.2 u' ((hmem u').2 (.inl rfl)) d hdfiled
      · unfold Claim.Holds
        rw [habove, hnull]
        exact .null
    have hc'holds : c'.Holds (Good s k m.scope (· ∈ vars) σ) := by
      rcases hd with rfl | rfl
      · exact hdholds
      · exact Constraint.flip_holds.1 hdholds
    have hagree' : p.Agrees σ := Agrees.of_kept hkept hagree
    refine ⟨fun e he => ?_, fun x hx e he => ?_⟩
    · rw [hpend] at he
      rcases List.mem_cons.1 he with rfl | he
      · exact hbec.holds (hp.agrees hagree' _) (hp.clean _) hc'holds
      · rw [hst]
        exact hholds.1 e he
    · rw [hus, List.mem_append, List.mem_cons] at hx
      rw [hst]
      rcases hx with hx | rfl | hx
      · exact hholds.2 x ((hmem x).2 (.inr (List.mem_append_left _ hx))) e he
      · exact hholds.2 u' ((hmem u').2 (.inl rfl)) e (hfiled e he)
      · exact hholds.2 x ((hmem x).2 (.inr (List.mem_append_right _ hx))) e he

/-- **Reducing the oldest constraint loses nothing**, and keeps the problem tidy. -/
theorem advanceBy_follows (hs : s.Regular k) {c : Constraint} {rest : List Constraint}
    {r : Progress} (hm : m.Faithful s) (htame : m.Tame s k)
    (hg : m.scope.Grounded s k (· ∈ vars) μ) (hp : p.Tidy s k vars μ)
    (hpend : p.pending = c :: rest) (h : (p.advanceBy s c rest).Answers m r m') :
    m.Grows s k m' ∧ ∃ ν, μ.Le ν ∧ m'.scope.Grounded s k (· ∈ vars) ν ∧
      p.Follows s k vars ν m m' r := by
  have hctidy := hp.pending c (by rw [hpend]; exact List.mem_cons_self)
  have hresttidy : ∀ d ∈ rest, s.Tidy k (· ∈ vars) μ d.lhs d.rhs := fun d hd =>
    hp.pending d (by rw [hpend]; exact List.mem_cons_of_mem _ hd)
  -- what is reduced is the problem without the constraint
  have hp₀ : ({ p with pending := rest } : Problem).Tidy s k vars μ :=
    ⟨hp.domain, hp.distinct, hresttidy, hp.unknowns⟩
  obtain ⟨red, m₁, hred, h⟩ := answers_bind.1 h
  obtain ⟨c', m₂, hbec, hst, hcases⟩ := reduce_answers hm hp₀ hg.clean hctidy hred
  have htidy := hbec.tidy (hp₀.clean _) hg.clean hctidy
  have hscope : m₂.scope = m.scope := hst.keeps.scope_eq
  rcases hcases with ⟨w, d, hd, hlhs, hflat, rfl, rfl⟩ | ⟨hfaces, hrigid⟩
  · -- it is filed
    rw [file] at h
    cases hfile : Unknown.fileWith w.key d p.unknowns with
    | ok us =>
      simp only [hfile] at h
      obtain ⟨rfl, rfl⟩ := answers_pure.1 h
      refine ⟨hst.grows k, μ, .refl μ, hscope ▸ hg, ?_⟩
      exact file_leads hp hpend hscope.symm hbec htidy hd hlhs hflat hfile
    | error f =>
      simp only [hfile] at h
      obtain ⟨rfl, rfl⟩ := answers_pure.1 h
      exact ⟨hst.grows k, μ, .refl μ, hscope ▸ hg, fun types htypes => by cases htypes⟩
  · obtain ⟨v, hres, hasks⟩ :=
      Setting.reduceRigid_answers hs hst.faithful htidy.left htidy.right hfaces hrigid
    have hgrows₁ := hres.grows hst.faithful
    have hgrows : m.Grows s k m₁ := (hst.grows k).trans hgrows₁
    obtain ⟨ν, hle, hground, hclaims⟩ := hres.tidy hs hst.faithful (hscope.symm ▸ hg)
      (hst.keeps.tame htame) htidy
    -- the constraint holds if what is asked for does
    have hback : ∀ σ, p.Agrees σ → v.Holds (Good s k m₁.scope (· ∈ vars) σ) →
        c.Holds (Good s k m.scope (· ∈ vars) σ) := fun σ hagree hv => by
      refine hbec.holds (hp₀.agrees hagree _) (hp₀.clean _) ?_
      rw [← hscope]
      exact hres.good hs htidy.left htidy.right hv
    cases red with
    | filed us => cases v <;> cases hasks
    | allOf cs =>
      cases v with
      | all claims =>
        obtain rfl : cs.map Constraint.toClaim = claims := hasks
        obtain ⟨rfl, rfl⟩ := answers_pure.1 h
        refine ⟨hgrows, ν, hle, hground, ⟨hp.domain, hp.distinct, fun d hd => ?_,
          fun u hu => (hp.unknowns u hu).mono hle⟩, ?_⟩
        · rcases List.mem_append.1 hd with hd | hd
          · exact (hresttidy d hd).mono hle
          · exact hclaims d.toClaim (List.mem_map_of_mem hd)
        · refine leads_of_pending hpend hgrows.le rfl (fun d hd => List.mem_append_left _ hd)
            fun σ hagree hpending => hback σ hagree fun e he => ?_
          obtain ⟨d, hd, rfl⟩ := List.mem_map.1 he
          exact hpending d (List.mem_append_right _ hd)
      | one _ => cases hasks
      | never => cases hasks
    | oneOf cs =>
      cases v with
      | one claims =>
        obtain rfl : cs.map Constraint.toClaim = claims := hasks
        obtain ⟨rfl, rfl⟩ := answers_pure.1 h
        refine ⟨hgrows, ν, hle, hground, fun p' hp' => ?_⟩
        obtain ⟨d, hd, rfl⟩ := List.mem_map.1 hp'
        refine ⟨⟨hp.domain, hp.distinct, fun e he => ?_,
          fun u hu => (hp.unknowns u hu).mono hle⟩, ?_⟩
        · rcases List.mem_append.1 he with he | he
          · exact (hresttidy e he).mono hle
          · rw [List.mem_singleton.1 he]
            exact hclaims d.toClaim (List.mem_map_of_mem hd)
        · refine leads_of_pending hpend hgrows.le rfl (fun e he => List.mem_append_left _ he)
            fun σ hagree hpending => hback σ hagree ⟨d.toClaim, List.mem_map_of_mem hd, ?_⟩
          exact hpending d (List.mem_append_right _ List.mem_cons_self)
      | all _ => cases hasks
      | never => cases hasks
    | refuted f =>
      obtain ⟨rfl, rfl⟩ := answers_pure.1 h
      exact ⟨hgrows, ν, hle, hground, fun types htypes => by cases htypes⟩

end Problem
end Inference
end Generics
