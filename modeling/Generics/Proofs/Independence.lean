/-
# Answers do not depend on the counter

Captured variables get their numbers from a counter that goes on from question to question. A
question that is asked with two values of the counter, neither of which is less than a number in
what is asked and remembered, leads to the same answer up to the numbers that are handed out on the
way, and leaves the same bounds behind (`independent_of_counter`). With the smaller value first this
is what `Query.Mirrors` says; with the greater one first, the numbers are put back.
-/

import Generics.Proofs.Namesakes
import Generics.Proofs.Catalogs

namespace Generics

/-- Numbers up to `c₁` stay, and those after `c₁` become those after `c₂`, in order. -/
def shift (c₁ c₂ i : Nat) : Nat := if i ≤ c₁ then i else i - c₁ + c₂

section Shift

variable {c k c₁ c₂ : Nat}

/-- Shifting up lifts the numbers by the difference. -/
theorem shift_eq_lift (h : c₁ ≤ c₂) : shift c₁ c₂ = lift c₁ (c₂ - c₁) := by
  funext i
  unfold shift lift
  split <;> omega

/-- Put back, the numbers are what they were. -/
theorem shift_leftInverse (h : c₂ ≤ c₁) : Function.LeftInverse (shift c₁ c₂) (lift c₂ (c₁ - c₂)) := by
  intro i
  unfold shift lift
  split <;> split <;> omega

/-- Lifting keeps the order of numbers. -/
theorem lift_strictMono (c k : Nat) : StrictMono (lift c k) := by
  intro i j h
  unfold lift
  split <;> split <;> omega

end Shift

/-! ## Numbers that stay -/

/-- The numbers in a catalog: in the bounds and in the supertypes that it lists. -/
def Catalog.numbers (C : Catalog) : List Nat :=
  (C.decls.flatMap fun d => d.params.flatMap (fun p => p.upper.numbers) ++
    d.parents.flatMap Nominal.numbers) ++ C.free.flatMap Ty.numbers

/-- The numbers in a memory: of the captured variables, in their bounds, and in the supertypes that are
known or that known ways go through. -/
def Memory.numbers (m : Memory) : List Nat :=
  (m.captured.flatMap fun x => x.id :: (x.upper.numbers ++ x.lower.numbers)) ++
    ((m.known.flatMap Lineage.parents ++ m.routes.filterMap Route.parent).flatMap Nominal.numbers)

/-- The memory with another value of the counter. -/
def Memory.counting (m : Memory) (n : Nat) : Memory := { m with lastCaptured := n }

/-- The numbers in a renumbered declaration are the renumbered ones. -/
theorem Nominal.numbers_renumber (f : Nat → Nat) (n : Nominal) :
    (n.renumber f).numbers = n.numbers.map f := by
  rw [Nominal.numbers, Nominal.toTy_renumber, Ty.numbers_renumber, Nominal.numbers]

/-- Renumbering captured variables can be undone if renumbering can. -/
theorem Captured.renumber_leftInverse {f g : Nat → Nat} (h : Function.LeftInverse g f) :
    Function.LeftInverse (Captured.renumber g) (Captured.renumber f) := by
  rintro ⟨i, upper, lower⟩
  simp only [Captured.renumber, h i, Ty.renumber_leftInverse h upper, Ty.renumber_leftInverse h lower]

section Counter

variable {c : Nat}

/-- A type with numbers below the counter does not depend on it. -/
theorem Ty.counter_eq_self {t : Ty} (h : ∀ i ∈ t.numbers, i ≤ c) (k : Nat) :
    t.rename (.counter c k) = t := by
  rw [Ty.rename_counter]
  exact Ty.renumber_eq_self fun i hi => lift_of_le (h i hi)

/-- An applied declaration with numbers below the counter does not depend on it. -/
theorem Nominal.counter_eq_self {n : Nominal} (h : ∀ i ∈ n.numbers, i ≤ c) (k : Nat) :
    n.rename (.counter c k) = n := by
  rw [Nominal.rename_counter]
  exact Nominal.renumber_eq_self fun i hi => lift_of_le (h i hi)

/-- Renaming by a counter renumbers captured variables. -/
theorem Captured.rename_counter (c k : Nat) (x : Captured) :
    x.rename (.counter c k) = x.renumber (lift c k) := by
  rw [Captured.rename, Captured.renumber, Ty.rename_counter, Ty.rename_counter]
  rfl

/-- A setting with numbers below the counter does not depend on it. -/
theorem Setting.counter_eq_self {s : Setting} (hs : ∀ i ∈ s.catalog.numbers, i ≤ c) (k : Nat) :
    s.rename (.counter c k) = s := by
  refine Setting.rename_eq_self (fun d hd => ?_) fun t ht => Ty.counter_eq_self (fun i hi =>
    hs i (List.mem_append_right _ (List.mem_flatMap.2 ⟨t, ht, hi⟩))) k
  have hnumbers : ∀ i ∈ d.params.flatMap (fun p => p.upper.numbers) ++
      d.parents.flatMap Nominal.numbers, i ≤ c := fun i hi =>
    hs i (List.mem_append_left _ (List.mem_flatMap.2 ⟨d, hd, hi⟩))
  refine Declaration.rename_eq_self (fun _ _ => rfl) (fun p hp => ?_) fun n hn => ?_
  · exact Ty.counter_eq_self (fun i hi =>
      hnumbers i (List.mem_append_left _ (List.mem_flatMap.2 ⟨p, hp, hi⟩))) k
  · exact Nominal.counter_eq_self (fun i hi =>
      hnumbers i (List.mem_append_right _ (List.mem_flatMap.2 ⟨n, hn, hi⟩))) k

/-- What is remembered stays, and the counter is ahead. -/
theorem Memory.counting_rename {m : Memory} (hm : ∀ i ∈ m.numbers, i ≤ c) (k : Nat) :
    (m.counting c).rename (.counter c k) = m.counting (c + k) := by
  have hcaptured : ∀ x ∈ m.captured, x.rename (.counter c k) = x := by
    intro x hx
    have hnumbers : ∀ i ∈ x.id :: (x.upper.numbers ++ x.lower.numbers), i ≤ c :=
      fun i hi => hm i (List.mem_append_left _ (List.mem_flatMap.2 ⟨x, hx, hi⟩))
    refine Captured.rename_eq_self (lift_of_le (hnumbers x.id List.mem_cons_self)) ?_ ?_
    · exact Ty.counter_eq_self (fun i hi =>
        hnumbers i (List.mem_cons_of_mem _ (List.mem_append_left _ hi))) k
    · exact Ty.counter_eq_self (fun i hi =>
        hnumbers i (List.mem_cons_of_mem _ (List.mem_append_right _ hi))) k
  have hnominal : ∀ n ∈ m.known.flatMap Lineage.parents ++ m.routes.filterMap Route.parent,
      n.rename (.counter c k) = n := fun n hn =>
    Nominal.counter_eq_self (fun i hi =>
      hm i (List.mem_append_right _ (List.mem_flatMap.2 ⟨n, hn, hi⟩))) k
  have hknown : ∀ l ∈ m.known, l.rename (.counter c k) = l := fun l hl =>
    Lineage.rename_eq_self (fun v _ => v.rename_counter c k) fun n hn =>
      hnominal n (List.mem_append_left _ (List.mem_flatMap.2 ⟨l, hl, hn⟩))
  have hroutes : ∀ r ∈ m.routes, r.rename (.counter c k) = r := fun r hr =>
    Route.rename_eq_self fun n hn =>
      hnominal n (List.mem_append_right _ (List.mem_filterMap.2 ⟨r, hr, hn⟩))
  simp only [Memory.rename, Memory.counting, map_eq_self hcaptured, map_eq_self hknown,
    map_eq_self hroutes]
  rfl

end Counter

/-! ## Two values of the counter -/

/-- Asked with the values `c₁` and `c₂` of the counter, a question leads to corresponding answers and
leaves the same captured variables, up to the numbers above `c₁`, which become those above `c₂`. -/
structure Query.Independent {α : Type} (R : (Nat → Nat) → α → α → Prop) (q : Query α) (m : Memory)
    (c₁ c₂ : Nat) : Prop where
  answers : Corresponds (R (shift c₁ c₂)) (q.outcome (m.counting c₁)).1 (q.outcome (m.counting c₂)).1
  captured : (q.outcome (m.counting c₂)).2.captured =
    (q.outcome (m.counting c₁)).2.captured.map (Captured.renumber (shift c₁ c₂))

/-- A question that runs side by side with itself does not depend on the counter. -/
theorem Query.Independent.of_mirrors {α : Type} {R : (Nat → Nat) → α → α → Prop} {q : Query α}
    {m : Memory} {c₁ c₂ : Nat} (hm : ∀ i ∈ m.numbers, i ≤ c₁ ∧ i ≤ c₂)
    (hR : ∀ {f g : Nat → Nat} {a b : α}, Function.LeftInverse g f → StrictMono f → R f a b → R g b a)
    (hq : ∀ c, c = c₁ ∨ c = c₂ → ∀ k, Mirrors (.counter c k) (R (lift c k)) q q) :
    q.Independent R m c₁ c₂ := by
  rcases Nat.le_total c₁ c₂ with h | h
  · obtain ⟨-, hmem, hout⟩ := hq c₁ (.inl rfl) (c₂ - c₁) (m.counting c₁) (Nat.le_refl c₁)
    rw [Memory.counting_rename (fun i hi => (hm i hi).1), Nat.add_sub_cancel' h] at hmem hout
    rw [← shift_eq_lift h] at hout
    refine ⟨hout, ?_⟩
    rw [hmem, shift_eq_lift h, ← funext (Captured.rename_counter c₁ (c₂ - c₁))]
    rfl
  -- with the smaller value the question runs first, and its numbers are put back
  · obtain ⟨-, hmem, hout⟩ := hq c₂ (.inr rfl) (c₁ - c₂) (m.counting c₂) (Nat.le_refl c₂)
    rw [Memory.counting_rename (fun i hi => (hm i hi).2), Nat.add_sub_cancel' h] at hmem hout
    have hback := shift_leftInverse h
    refine ⟨hout.flip.imp fun a b => hR hback (lift_strictMono _ _), ?_⟩
    rw [hmem]
    dsimp only [Memory.rename]
    rw [funext (Captured.rename_counter c₂ (c₁ - c₂)), List.map_map]
    refine ((List.map_congr_left fun x _ => ?_).trans (List.map_id _)).symm
    exact Captured.renumber_leftInverse hback x

namespace Inference

/-- The inferences give the same verdict with the same effort, and the results are the same up to the
numbers, which are in the same order. -/
structure Inferred.Renamed (f : Nat → Nat) (r r' : Inferred) : Prop where
  unique : r'.unique = r.unique
  effort : r'.effort = r.effort
  result : r'.result = r.result.renumber f
  ordered : StrictMonoOn f {i | i ∈ r.result.numbers}

/-- An inference and its renaming by a counter correspond. -/
theorem Inferred.renamed (r : Inferred) (c k : Nat) :
    r.Renamed (lift c k) (r.rename (.counter c k)) :=
  ⟨rfl, rfl, r.result.rename_counter c k, (lift_strictMono c k).strictMonoOn _⟩

/-- Renamed back, an inference is what it was. -/
theorem Inferred.Renamed.flip {f g : Nat → Nat} {r r' : Inferred}
    (hgf : Function.LeftInverse g f) (hf : StrictMono f) (h : r.Renamed f r') : r'.Renamed g r where
  unique := h.unique.symm
  effort := h.effort.symm
  result := by rw [h.result, Nominal.renumber_leftInverse hgf]
  ordered := by
    rw [h.result, Nominal.numbers_renumber]
    rintro i hi j hj hij
    obtain ⟨i, -, rfl⟩ := List.mem_map.1 hi
    obtain ⟨j, -, rfl⟩ := List.mem_map.1 hj
    rw [hgf i, hgf j]
    exact hf.lt_iff_lt.1 hij

/-- **Answers do not depend on the counter.** Let no number in the catalog, in the memory and in what is
asked be greater than either of two values of the counter. Then comparisons give the same answers,
and an inference fails with a failure of the same kind, or it succeeds with the same verdict and
effort and with the same result up to the numbers of the variables captured on the way. -/
theorem independent_of_counter {s : Setting} {m : Memory} {c₁ c₂ : Nat}
    (hs : ∀ i ∈ s.catalog.numbers ++ m.numbers, i ≤ c₁ ∧ i ≤ c₂) :
    (∀ a b : Ty, (∀ i ∈ a.numbers ++ b.numbers, i ≤ c₁ ∧ i ≤ c₂) →
      (s.below a b).Independent (fun _ r r' => r = r') m c₁ c₂ ∧
        (s.equivalent a b).Independent (fun _ r r' => r = r') m c₁ c₂) ∧
    ∀ (target : Ty) (decl : String), (∀ i ∈ target.numbers, i ≤ c₁ ∧ i ≤ c₂) →
      (infer s target decl).Independent Inferred.Renamed m c₁ c₂ := by
  have hm : ∀ i ∈ m.numbers, i ≤ c₁ ∧ i ≤ c₂ := fun i hi => hs i (List.mem_append_right _ hi)
  have hcatalog : ∀ c, c = c₁ ∨ c = c₂ → ∀ i ∈ s.catalog.numbers, i ≤ c := by
    rintro c (rfl | rfl) i hi
    · exact (hs i (List.mem_append_left _ hi)).1
    · exact (hs i (List.mem_append_left _ hi)).2
  have hsetting : ∀ c, c = c₁ ∨ c = c₂ → ∀ k, s.rename (.counter c k) = s :=
    fun c hc => Setting.counter_eq_self (hcatalog c hc)
  have hfixed : ∀ c, c = c₁ ∨ c = c₂ → ∀ (k : Nat) (t : Ty), (∀ i ∈ t.numbers, i ≤ c₁ ∧ i ≤ c₂) →
      t.rename (.counter c k) = t := by
    rintro c (rfl | rfl) k t ht
    · exact Ty.counter_eq_self (fun i hi => (ht i hi).1) k
    · exact Ty.counter_eq_self (fun i hi => (ht i hi).2) k
  refine ⟨fun a b hab => ⟨.of_mirrors hm (fun _ _ h => h.symm) fun c hc k => ?_,
    .of_mirrors hm (fun _ _ h => h.symm) fun c hc k => ?_⟩, fun target decl ht =>
    .of_mirrors hm (fun hgf hf h => h.flip hgf hf) fun c hc k => ?_⟩
  · have hbelow := Setting.below_mirrors (s := s) (ρ := .counter c k) a b
    rwa [hsetting c hc, hfixed c hc k a fun i hi => hab i (List.mem_append_left _ hi),
      hfixed c hc k b fun i hi => hab i (List.mem_append_right _ hi)] at hbelow
  · have hequivalent := Setting.equivalent_mirrors (s := s) (ρ := .counter c k) a b
    rwa [hsetting c hc, hfixed c hc k a fun i hi => hab i (List.mem_append_left _ hi),
      hfixed c hc k b fun i hi => hab i (List.mem_append_right _ hi)] at hequivalent
  · have hinfer := infer_mirrors (s := s) (ρ := .counter c k) target decl
    rw [hsetting c hc, hfixed c hc k target ht] at hinfer
    refine hinfer.imp ?_
    rintro r _ rfl
    exact r.renamed c k

/-- Rows of elements, with columns that are lists of them. -/
def columns : Catalog := .extended [
  { name := "Source", params := [⟨"B", ""⟩] },
  { name := "Rows", params := [⟨"A", ""⟩, ⟨"B", "List<A>"⟩], parents := ["Source<B>"] }]

/-- `ArrayList<? extends Cap#2>` -/
def column : Ty := .nominal ⟨.given 0, [7]⟩ "ArrayList" [.wild (.var (.captured 2)) .null]

/-- To infer `Rows` from `Source<ArrayList<? extends Cap#2>>`, the argument of the column is captured.
The new variable is an argument of the result: `Cap#3` if the counter was at two, and `Cap#8` if it
was at seven. -/
theorem independent_of_counter_columns :
    let s : Setting := { catalog := columns }
    let m : Memory := { captured := [⟨2, .object, .null⟩] }
    let source : Ty := .nominal ⟨.given 0, [0]⟩ "Source" [.type column]
    ((s.below column source).Independent (fun _ r r' => r = r') m 2 7 ∧
      (infer s source "Rows").Independent Inferred.Renamed m 2 7) ∧
    ((infer s source "Rows").outcome (m.counting 2)).1.map (fun r => r.result.numbers) = .ok [3, 2] ∧
    ((infer s source "Rows").outcome (m.counting 7)).1.map (fun r => r.result.numbers) =
      .ok [8, 2] := by
  intro s m source
  obtain ⟨hnumbers, hboth, hsource, hresults⟩ :
      (∀ i ∈ s.catalog.numbers ++ m.numbers, i ≤ 2 ∧ i ≤ 7) ∧
        (∀ i ∈ column.numbers ++ source.numbers, i ≤ 2 ∧ i ≤ 7) ∧
        (∀ i ∈ source.numbers, i ≤ 2 ∧ i ≤ 7) ∧
        ((infer s source "Rows").outcome (m.counting 2)).1.map (fun r => r.result.numbers) =
          .ok [3, 2] ∧
        ((infer s source "Rows").outcome (m.counting 7)).1.map (fun r => r.result.numbers) =
          .ok [8, 2] := by
    decide +kernel
  obtain ⟨hcompare, hinfer⟩ := independent_of_counter hnumbers
  exact ⟨⟨(hcompare column source hboth).1, hinfer source "Rows" hsource⟩, hresults⟩

end Inference
end Generics
