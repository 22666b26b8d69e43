/-
# Variables bounded by themselves

A variable is bounded by itself when following upper bounds that are variables, or
intersections with variables among their members, leads back to it. The walk follows the
bounds, newest first, and enters each variable once.
-/

import Generics.Catalog.Basic

namespace Generics

/-- A list with every occurrence of an element taken out. -/
def without {α : Type} [BEq α] (as : List α) (a : α) : List α := as.filter (· != a)

/-- Taking an element out of a list makes the list shorter. -/
theorem without_length_lt {α : Type} [BEq α] [LawfulBEq α] {a : α} {as : List α}
    (h : a ∈ as) : (without as a).length < as.length := by
  induction as with
  | nil => simp at h
  | cons b bs ih =>
    by_cases hb : b = a
    · subst hb
      have := List.length_filter_le (· != b) bs
      simp only [without, List.filter, bne_self_eq_false, List.length_cons]
      omega
    · have hmem : a ∈ bs := by
        rcases List.mem_cons.1 h with h | h
        · exact absurd h.symm hb
        · exact h
      have hne : (b != a) = true := by simpa using hb
      simp only [without, List.filter, hne, List.length_cons]
      exact Nat.succ_lt_succ (ih hmem)

namespace Catalog

/-- The variables that the bound of a variable is, or is an intersection with. -/
def boundVars (c : Catalog) (v : TypeVar) : List TypeVar := (c.upper v).bareVars

/-- The keys of the variables that may be met on the way up from a variable. -/
def boundKeys (c : Catalog) : List VarKey :=
  ((c.decls.flatMap Declaration.vars).flatMap fun v => (c.boundVars v).map TypeVar.key)
    ++ c.free.flatMap fun t => t.bareVars.map TypeVar.key

/-- Whether a walk up the bounds from the stacked variables meets the key. Only variables whose
keys remain are entered, and entering one takes its key out. -/
def climbs (c : Catalog) (goal : VarKey) (remaining : List VarKey) (stack : List TypeVar) :
    Bool :=
  match stack.dropWhile fun v => v.key != goal && !remaining.contains v.key with
  | [] => false
  | v :: rest =>
    if v.key == goal then true
    else if _h : v.key ∈ remaining then
      c.climbs goal (without remaining v.key) ((c.boundVars v).reverse ++ rest)
    else false
termination_by remaining.length
decreasing_by exact without_length_lt _h

/-- Whether a variable is bounded by itself. -/
def selfBounded (c : Catalog) (v : TypeVar) : Bool :=
  c.climbs v.key ((c.boundVars v).map TypeVar.key ++ c.boundKeys) (c.boundVars v).reverse

end Catalog

end Generics
