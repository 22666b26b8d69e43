/-
# Bounds that lead nowhere back

Following the bounds of parameters that are variables comes to an end if no parameter is bounded by
itself. The walk that looks for a variable (`Catalog.climbs`) enters each key once; when it does not
find its goal, the variables it entered are closed under taking bounds, as far as their keys tell
(`Catalog.climbs_entered`), and so altogether if keys tell variables apart (`Catalog.climbs_closed`);
the goal is not among them. In a finite set of variables, bounds that do not lead back to where they
started come to an end (`Encloses.acc`).
-/

import Generics.Proofs.Regularity
import Mathlib.Data.Set.Finite.List

namespace Generics
namespace Catalog

/-- What is left without an element is all that is not it. -/
theorem mem_without {α : Type} [BEq α] [LawfulBEq α] {a b : α} {as : List α} :
    b ∈ without as a ↔ b ∈ as ∧ b ≠ a := by
  rw [without, List.mem_filter, bne_iff_ne]

/-- A variable is a bound of another one. -/
def Bounds (c : Catalog) (w v : TypeVar) : Prop := w ∈ c.boundVars v

/-- Nothing is reached from no variable. -/
theorem climbs_nil (c : Catalog) (goal : VarKey) (remaining : List VarKey) :
    c.climbs goal remaining [] = false := by
  rw [climbs, List.dropWhile_nil]

/-- The walk looks at one variable after another: it is the goal, or is entered, or was entered before. -/
theorem climbs_cons (c : Catalog) (goal : VarKey) (remaining : List VarKey) (v : TypeVar)
    (rest : List TypeVar) :
    c.climbs goal remaining (v :: rest) =
      if v.key = goal then true
      else if v.key ∈ remaining then
        c.climbs goal (without remaining v.key) ((c.boundVars v).reverse ++ rest)
      else c.climbs goal remaining rest := by
  rw [climbs]
  by_cases hgoal : v.key = goal
  · rw [List.dropWhile_cons_of_neg (by simp [hgoal])]
    simp [hgoal]
  · by_cases hmem : v.key ∈ remaining
    · rw [List.dropWhile_cons_of_neg (by simp [hmem])]
      simp [hgoal, hmem]
    · rw [List.dropWhile_cons_of_pos (by simp [hgoal, hmem]), if_neg hgoal, if_neg hmem, climbs]

/-- What holds of a walk when nothing is left, when the goal is found, and of a walk that enters a
variable or passes it over if it holds of the rest of the walk, holds of every walk. -/
theorem climbs_induct (c : Catalog) (goal : VarKey) {P : List VarKey → List TypeVar → Prop}
    (nil : ∀ remaining, P remaining [])
    (found : ∀ remaining v rest, v.key = goal → P remaining (v :: rest))
    (enter : ∀ remaining v rest, v.key ≠ goal → v.key ∈ remaining →
      P (without remaining v.key) ((c.boundVars v).reverse ++ rest) → P remaining (v :: rest))
    (pass : ∀ remaining v rest, v.key ≠ goal → v.key ∉ remaining → P remaining rest →
      P remaining (v :: rest))
    (remaining : List VarKey) (stack : List TypeVar) : P remaining stack := by
  induction hn : remaining.length using Nat.strongRecOn generalizing remaining stack with
  | ind n ih =>
    induction stack with
    | nil => exact nil remaining
    | cons v rest hrest =>
      by_cases hgoal : v.key = goal
      · exact found remaining v rest hgoal
      · by_cases hmem : v.key ∈ remaining
        · exact enter remaining v rest hgoal hmem
            (ih _ (hn ▸ without_length_lt hmem) _ _ rfl)
        · exact pass remaining v rest hgoal hmem hrest

/-- **What a walk has entered that does not find its goal.** All of it was reached from the stack; and
what stands on the stack or bounds what was entered has another key than the goal, and a key that was
entered, unless that was not to be entered. -/
theorem climbs_entered (c : Catalog) {goal : VarKey} {remaining : List VarKey}
    {stack : List TypeVar} (h : c.climbs goal remaining stack = false) :
    ∃ S : TypeVar → Prop,
      (∀ x, S x → ∃ u ∈ stack, Relation.ReflTransGen c.Bounds x u) ∧
        ∀ u, (u ∈ stack ∨ ∃ x, S x ∧ c.Bounds u x) →
          u.key ≠ goal ∧ (u.key ∈ remaining → ∃ x, S x ∧ x.key = u.key) := by
  induction remaining, stack using c.climbs_induct goal with
  | nil remaining =>
    exact ⟨fun _ => False, fun _ hx => hx.elim, fun u hu => by simp at hu⟩
  | found remaining v rest hgoal =>
    rw [climbs_cons, if_pos hgoal] at h
    cases h
  | enter remaining v rest hgoal hmem ih =>
    rw [climbs_cons, if_neg hgoal, if_pos hmem] at h
    obtain ⟨S, hreached, hclosed⟩ := ih h
    refine ⟨fun x => x = v ∨ S x, ?_, fun u hu => ?_⟩
    · rintro x (rfl | hx)
      · exact ⟨x, List.mem_cons_self, .refl⟩
      · obtain ⟨u, hu, hxu⟩ := hreached x hx
        rcases List.mem_append.1 hu with hu | hu
        · exact ⟨v, List.mem_cons_self, hxu.tail (List.mem_reverse.1 hu)⟩
        · exact ⟨u, List.mem_cons_of_mem _ hu, hxu⟩
    · -- the variable entered stands for every variable of its key
      have hother : (u ∈ (c.boundVars v).reverse ++ rest ∨ ∃ x, S x ∧ c.Bounds u x) →
          u.key ≠ goal ∧ (u.key ∈ remaining → ∃ x, (x = v ∨ S x) ∧ x.key = u.key) := by
        intro hu
        obtain ⟨hne, hentered⟩ := hclosed u hu
        refine ⟨hne, fun hin => ?_⟩
        by_cases hkey : u.key = v.key
        · exact ⟨v, .inl rfl, hkey.symm⟩
        · obtain ⟨x, hx, hxkey⟩ := hentered (mem_without.2 ⟨hin, hkey⟩)
          exact ⟨x, .inr hx, hxkey⟩
      rcases hu with hu | ⟨x, rfl | hx, hux⟩
      · rcases List.mem_cons.1 hu with rfl | hu
        · exact ⟨hgoal, fun _ => ⟨u, .inl rfl, rfl⟩⟩
        · exact hother (.inl (List.mem_append_right _ hu))
      · exact hother (.inl (List.mem_append_left _ (List.mem_reverse.2 hux)))
      · exact hother (.inr ⟨x, hx, hux⟩)
  | pass remaining v rest hgoal hmem ih =>
    rw [climbs_cons, if_neg hgoal, if_neg hmem] at h
    obtain ⟨S, hreached, hclosed⟩ := ih h
    refine ⟨S, fun x hx => ?_, fun u hu => ?_⟩
    · obtain ⟨u, hu, hxu⟩ := hreached x hx
      exact ⟨u, List.mem_cons_of_mem _ hu, hxu⟩
    · rcases hu with hu | hu
      · rcases List.mem_cons.1 hu with rfl | hu
        · exact ⟨hgoal, fun hin => absurd hin hmem⟩
        · exact hclosed u (.inl hu)
      · exact hclosed u (.inr hu)

/-- The bounds of some variables do not leave them, except to keys that are not to be entered, and
do not come to the goal. -/
def ClosedUp (goal : VarKey) (remaining : List VarKey) (S : TypeVar → Prop)
    (vs : List TypeVar) : Prop :=
  ∀ v ∈ vs, v.key ≠ goal ∧ (S v ∨ v.key ∉ remaining)

/-- **A walk that does not find its goal has entered a set of variables that is closed under taking
bounds.** Keys tell the variables apart that can be met. -/
theorem climbs_closed (c : Catalog) {P : TypeVar → Prop}
    (hP : ∀ v, P v → ∀ w ∈ c.boundVars v, P w)
    (hkey : ∀ v w, P v → P w → v.key = w.key → v = w) {goal : VarKey} {remaining : List VarKey}
    {stack : List TypeVar} (hstack : ∀ v ∈ stack, P v)
    (h : c.climbs goal remaining stack = false) :
    ∃ S : TypeVar → Prop, (∀ v, S v → P v) ∧ ClosedUp goal remaining S stack ∧
      ∀ v, S v → ClosedUp goal remaining S (c.boundVars v) := by
  obtain ⟨S, hreached, hclosed⟩ := c.climbs_entered h
  have hSP : ∀ x, S x → P x := by
    intro x hx
    obtain ⟨u, hu, hxu⟩ := hreached x hx
    clear hx
    induction hxu using Relation.ReflTransGen.head_induction_on with
    | refl => exact hstack u hu
    | head hstep _ ih => exact hP _ ih _ hstep
  have hentered : ∀ u, P u → (u ∈ stack ∨ ∃ x, S x ∧ c.Bounds u x) →
      u.key ≠ goal ∧ (S u ∨ u.key ∉ remaining) := by
    intro u hu hmet
    obtain ⟨hne, hin⟩ := hclosed u hmet
    refine ⟨hne, or_iff_not_imp_right.2 fun hmem => ?_⟩
    obtain ⟨x, hx, hxu⟩ := hin (not_not.1 hmem)
    exact hkey x u (hSP x hx) hu hxu ▸ hx
  exact ⟨S, hSP, fun u hu => hentered u (hstack u hu) (.inl hu), fun x hx u hu =>
    hentered u (hP x (hSP x hx) u hu) (.inr ⟨x, hx, hu⟩)⟩

/-- **A walk that finds its goal has come to it by taking bounds.** -/
theorem climbs_sound (c : Catalog) {goal : VarKey} {remaining : List VarKey} {stack : List TypeVar}
    (h : c.climbs goal remaining stack = true) :
    ∃ v ∈ stack, ∃ w, Relation.ReflTransGen c.Bounds w v ∧ w.key = goal := by
  induction remaining, stack using c.climbs_induct goal with
  | nil remaining =>
    rw [climbs_nil] at h
    cases h
  | found remaining v rest hgoal => exact ⟨v, List.mem_cons_self, v, .refl, hgoal⟩
  | enter remaining v rest hgoal hmem ih =>
    rw [climbs_cons, if_neg hgoal, if_pos hmem] at h
    obtain ⟨u, hu, w, hw, hkey⟩ := ih h
    rcases List.mem_append.1 hu with hu | hu
    · exact ⟨v, List.mem_cons_self, w, hw.tail (List.mem_reverse.1 hu), hkey⟩
    · exact ⟨u, List.mem_cons_of_mem _ hu, w, hw, hkey⟩
  | pass remaining v rest hgoal hmem ih =>
    rw [climbs_cons, if_neg hgoal, if_neg hmem] at h
    obtain ⟨u, hu, w, hw, hkey⟩ := ih h
    exact ⟨u, List.mem_cons_of_mem _ hu, w, hw, hkey⟩

/-- The bounds of the variables are among the variables, and keys tell those apart. -/
structure Encloses (c : Catalog) (vs : List TypeVar) : Prop where
  bounds : ∀ v ∈ vs, ∀ w, c.Bounds w v → w ∈ vs
  keys : ∀ v ∈ vs, ∀ w, c.Bounds w v → ∀ v' ∈ vs, ∀ w', c.Bounds w' v' → w.key = w'.key → w = w'
  known : ∀ v ∈ vs, ∀ w, c.Bounds w v → w.key ∈ c.boundKeys

/-- **What bounds a variable, directly or not, has another key**, unless the variable is bounded by
itself. -/
theorem Encloses.key_ne {c : Catalog} {vs : List TypeVar} (h : c.Encloses vs) {v : TypeVar}
    (hv : v ∈ vs) (hself : c.selfBounded v = false) {w : TypeVar}
    (hw : Relation.TransGen c.Bounds w v) : w.key ≠ v.key := by
  obtain ⟨S, hSP, hstack, hS⟩ := climbs_closed c
    (P := fun w => ∃ u ∈ vs, c.Bounds w u)
    (fun w ⟨u, hu, hw⟩ x hx => ⟨w, h.bounds u hu w hw, hx⟩)
    (fun w w' ⟨u, hu, hw⟩ ⟨u', hu', hw'⟩ hkey => h.keys u hu w hw u' hu' w' hw' hkey)
    (fun w hw => ⟨v, hv, List.mem_reverse.1 hw⟩) hself
  have henter : ∀ u ∈ vs, ∀ w, c.Bounds w u →
      ClosedUp v.key ((c.boundVars v).map TypeVar.key ++ c.boundKeys) S [w] →
        S w ∧ w.key ≠ v.key := by
    intro u hu w hw hclosed
    obtain ⟨hne, hin | hout⟩ := hclosed w List.mem_cons_self
    · exact ⟨hin, hne⟩
    · exact absurd (List.mem_append_right _ (h.known u hu w hw)) hout
  -- whatever is a bound of `v`, directly or not, was entered and has not the key of `v`
  suffices hall : w ∈ vs ∧ S w ∧ w.key ≠ v.key from hall.2.2
  induction hw using Relation.TransGen.head_induction_on with
  | single hw =>
    refine ⟨h.bounds v hv _ hw, henter v hv _ hw fun x hx => ?_⟩
    obtain rfl := List.mem_singleton.1 hx
    exact hstack _ (List.mem_reverse.2 hw)
  | head hw _ ih =>
    obtain ⟨hmem, hin, _⟩ := ih
    refine ⟨h.bounds _ hmem _ hw, henter _ hmem _ hw fun x hx => ?_⟩
    obtain rfl := List.mem_singleton.1 hx
    exact hS _ hin _ hw

/-- **Where no variable is bounded by itself, following bounds comes to an end.** -/
theorem Encloses.acc {c : Catalog} {vs : List TypeVar} (h : c.Encloses vs)
    (hself : ∀ v ∈ vs, c.selfBounded v = false) {v : TypeVar} (hv : v ∈ vs) : Acc c.Bounds v := by
  let R : {v // v ∈ vs} → {v // v ∈ vs} → Prop := Relation.TransGen fun w v => c.Bounds w.1 v.1
  have hlift : ∀ w u, R w u → Relation.TransGen c.Bounds w.1 u.1 := fun w u hwu =>
    hwu.lift Subtype.val fun _ _ => id
  have : IsTrans {v // v ∈ vs} R := ⟨fun _ _ _ => Relation.TransGen.trans⟩
  have : Std.Irrefl R := ⟨fun w hw => h.key_ne w.2 (hself w.1 w.2) (hlift w w hw) rfl⟩
  have : Finite {v // v ∈ vs} := vs.finite_toSet.to_subtype
  have hwf : WellFounded R := Finite.wellFounded_of_trans_of_irrefl R
  suffices hacc : ∀ w : {v // v ∈ vs}, Acc c.Bounds w.1 from hacc ⟨v, hv⟩
  intro w
  induction w using hwf.induction with
  | _ w ih => exact ⟨_, fun u hu => ih ⟨u, h.bounds w.1 w.2 u hu⟩ (.single hu)⟩

end Catalog

/-- A variable among the conjuncts of a type stands in it by itself. -/
theorem Ty.mem_bareVars {q : TypeVar} :
    ∀ {t : Ty}, Ty.var (.declared q) ∈ t.conjuncts → q ∈ t.bareVars
  | .var v, h => by
    cases List.mem_singleton.1 h
    exact List.mem_singleton.2 rfl
  | .inter _ ms, h => by
    have hmem : ∀ {ms : List Ty}, Ty.var (.declared q) ∈ ms → q ∈ Ty.bareVarsAll ms := by
      intro ms hms
      induction ms with
      | nil => cases hms
      | cons t ts ih =>
        rw [Ty.bareVarsAll, List.mem_append]
        rcases List.mem_cons.1 hms with rfl | hms
        · exact .inl (List.mem_singleton.2 rfl)
        · exact .inr (ih hms)
    exact hmem h
  | .prim _, h => by cases List.mem_singleton.1 h
  | .null, h => by cases List.mem_singleton.1 h
  | .nominal _ _ _, h => by cases List.mem_singleton.1 h
  | .array _, h => by cases List.mem_singleton.1 h

/-- A bare bound is a bound that the walk follows. -/
theorem Setting.BareBound.bounds {s : Setting} {q p : TypeVar} (h : s.BareBound q p) :
    s.catalog.Bounds q p := Ty.mem_bareVars h

end Generics
