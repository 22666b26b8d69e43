/-
# The tree of branches

A search unfolds a tree. Its leaves are the problems that come to their end without a fork; a fork has
the branches that were searched, in order, and those that were left out because the leaves before them
had settled the outcome (`Problem.Explores`). A search that stays within the limit explores exactly one
tree, and nothing but the outcomes of its leaves matters (`searchWithin_explores`), in the order in which
they are come upon:

| outcome | from the leaves |
| --- | --- |
| solutions | those of the first leaf that is solved |
| ambiguous | a leaf is ambiguous, or two are solved |
| failure | if no leaf is solved: that of the first leaf that lacked information, else of the first leaf |

For solutions and ambiguity the outcomes of branches are merged as their leaves are put one behind the
other (`Outcome.merge_among`); to blame the branches of a fork is to blame their leaves
(`Outcome.blame_append`). Branches are left out only behind a leaf that is solved, so a search without
solutions has seen the whole tree (`Problem.Explores.isWhole`).
-/

import Generics.Proofs.Thoroughness

namespace Generics.Inference

open Query

/-! ### Trees -/

/-- What a search unfolds: the end of a problem that never forked, or a fork with the branches that were
searched and those that were left out. -/
inductive BranchTree
  | leaf (o : Outcome)
  | fork (searched : List BranchTree) (leftOut : List Problem)

namespace BranchTree

mutual
/-- The outcomes of the leaves, in the order in which they are come upon. -/
def leaves : BranchTree → List Outcome
  | .leaf o => [o]
  | .fork searched _ => leavesAll searched

/-- The outcomes of the leaves of all trees. -/
def leavesAll : List BranchTree → List Outcome
  | [] => []
  | t :: ts => t.leaves ++ leavesAll ts
end

mutual
/-- Whether no branch was left out. -/
def isWhole : BranchTree → Bool
  | .leaf _ => true
  | .fork searched leftOut => leftOut.isEmpty && isWholeAll searched

/-- Whether no branch of any tree was left out. -/
def isWholeAll : List BranchTree → Bool
  | [] => true
  | t :: ts => t.isWhole && isWholeAll ts
end

end BranchTree

open BranchTree

namespace Outcome

/-- What leaves found between them. -/
def among (leaves : List Outcome) : Outcome where
  solutions := leaves.findSome? Outcome.solutions
  ambiguous := leaves.any Outcome.ambiguous || decide (2 ≤ leaves.countP fun l => l.solutions.isSome)

/-- The outcome of a tree with the given leaves. -/
def ofLeaves (leaves : List Outcome) : Outcome :=
  (among leaves).close (leaves.filterMap Outcome.failure)

/-- A leaf is solved, or it lacked information or met a contradiction. -/
structure IsLeaf (o : Outcome) : Prop where
  solved : o.solutions.isSome = true → o.failure = none
  unsolved : o.solutions = none →
    ∃ f, o.failure = some f ∧ (f.kind? = some .incomplete ∨ f.kind? = some .unsatisfiable)

/-- Nothing is solved, for a failure of the given kind. -/
def FailsAs (kind : Failure.Kind) (o : Outcome) : Prop :=
  o.solutions = none ∧ ∃ f, o.failure = some f ∧ f.kind? = some kind

end Outcome

section Explores

variable (s : Setting)

mutual
/-- Searched in the first memory, the problem unfolds to the tree and leaves the second memory. -/
inductive Problem.Explores : Problem → Memory → BranchTree → Memory → Prop
  | leaf {p : Problem} {m m' : Memory} {o : Outcome} (h : (p.advance s).Answers m (.done o) m') :
      Explores p m (.leaf o) m'
  | further {p p' : Problem} {m m₁ m' : Memory} {t : BranchTree}
      (h : (p.advance s).Answers m (.further p') m₁) (ht : Explores p' m₁ t m') : Explores p m t m'
  | fork {p : Problem} {m m₁ m' : Memory} {ps leftOut : List Problem} {ts : List BranchTree}
      (h : (p.advance s).Answers m (.fork ps) m₁) (hts : ExploresAll [] ps m₁ ts leftOut m') :
      Explores p m (.fork ts leftOut) m'

/-- The branches of a fork are searched in order, behind leaves that were come upon already, until the
outcome is settled or no branch remains. -/
inductive Problem.ExploresAll :
    List Outcome → List Problem → Memory → List BranchTree → List Problem → Memory → Prop
  | nil {seen : List Outcome} {m : Memory} : ExploresAll seen [] m [] [] m
  | enough {seen : List Outcome} {p : Problem} {ps : List Problem} {m m' : Memory} {t : BranchTree}
      (ht : Explores p m t m') (hsettled : (Outcome.among (seen ++ t.leaves)).isSettled = true)
      (hexhaustive : s.options.exhaustive = false) : ExploresAll seen (p :: ps) m [t] ps m'
  | next {seen : List Outcome} {p : Problem} {ps leftOut : List Problem} {m m₁ m' : Memory}
      {t : BranchTree} {ts : List BranchTree} (ht : Explores p m t m₁)
      (hmore : ¬ ((Outcome.among (seen ++ t.leaves)).isSettled = true ∧ s.options.exhaustive = false))
      (hts : ExploresAll (seen ++ t.leaves) ps m₁ ts leftOut m') :
      ExploresAll seen (p :: ps) m (t :: ts) leftOut m'
end

end Explores

variable {s : Setting} {m m' : Memory} {p : Problem}

/-! ### Every explored tree -/

namespace Problem

/-- What a problem in which nothing is left to do comes to is a leaf. -/
theorem isLeaf_outcome (p : Problem) : p.outcome.IsLeaf := by
  unfold outcome
  dsimp only
  split
  · exact ⟨fun _ => rfl, nofun⟩
  · exact ⟨nofun, fun _ => ⟨_, rfl, .inl rfl⟩⟩

namespace Comes

variable {o : Outcome}

/-- What a later problem comes to, an earlier one does. -/
theorem of_keeps {p' : Problem} (h : p'.Comes (.done o)) (hkeeps : p.Keeps p') : p.Comes (.done o) :=
  h.imp id fun ⟨p₁, hp₁, ho⟩ => ⟨p₁, hkeeps.trans hp₁, ho⟩

/-- What a problem comes to is a leaf. -/
theorem isLeaf (h : p.Comes (.done o)) : o.IsLeaf := by
  rcases h with ⟨f, hkind, rfl⟩ | ⟨p', -, rfl⟩
  · exact ⟨nofun, fun _ => ⟨f, rfl, .inr hkind⟩⟩
  · exact p'.isLeaf_outcome

/-- There is a solution for each unknown. -/
theorem length_eq (h : p.Comes (.done o)) {types : List Ty} (htypes : o.solutions = some types) :
    types.length = p.unknowns.length := by
  rcases h with ⟨f, -, rfl⟩ | ⟨p', hkeeps, rfl⟩
  · cases htypes
  · exact (outcome_solutions htypes).length_eq.symm.trans hkeeps.length_eq.symm

end Comes

mutual
/-- **Every leaf is an end of the problem**: a contradiction, or the outcome with its own unknowns. -/
theorem Explores.comes {p : Problem} {m m' : Memory} {t : BranchTree} :
    Explores s p m t m' → ∀ l ∈ t.leaves, p.Comes (.done l)
  | .leaf h => by
    rw [leaves]
    exact List.forall_mem_singleton.2 (advance_comes _ _ _ _ h)
  | .further h ht => fun l hl => (ht.comes l hl).of_keeps (advance_comes _ _ _ _ h)
  | .fork h hts => by
    rw [leaves]
    exact hts.comes (advance_comes _ _ _ _ h).2

/-- The leaves of the branches are what the problem comes to. -/
theorem ExploresAll.comes {p : Problem} {seen : List Outcome} {ps leftOut : List Problem}
    {m m' : Memory} {ts : List BranchTree} :
    ExploresAll s seen ps m ts leftOut m' → (∀ p' ∈ ps, p.Keeps p') →
      ∀ l ∈ leavesAll ts, p.Comes (.done l)
  | .nil, _ => by simp [leavesAll]
  | .enough ht _ _, h => by
    rw [leavesAll, leavesAll, List.append_nil]
    exact fun l hl => (ht.comes l hl).of_keeps (h _ List.mem_cons_self)
  | .next ht _ hts, h => by
    obtain ⟨hp, hps⟩ := List.forall_mem_cons.1 h
    rw [leavesAll]
    exact List.forall_mem_append.2 ⟨fun l hl => (ht.comes l hl).of_keeps hp, hts.comes hps⟩
end

/-- The outcomes at the leaves of an explored tree are leaves. -/
theorem Explores.isLeaf {t : BranchTree} (h : p.Explores s m t m') : ∀ l ∈ t.leaves, l.IsLeaf :=
  fun l hl => (h.comes l hl).isLeaf

mutual
/-- An explored tree has a leaf. -/
theorem Explores.leaves_ne_nil {p : Problem} {m m' : Memory} {t : BranchTree} :
    Explores s p m t m' → t.leaves ≠ []
  | .leaf _ => by simp [leaves]
  | .further _ ht => ht.leaves_ne_nil
  | .fork h hts => by
    rw [leaves]
    exact hts.leaves_ne_nil (advance_comes _ _ _ _ h).1

/-- The trees of some branches have a leaf. -/
theorem ExploresAll.leaves_ne_nil {seen : List Outcome} {ps leftOut : List Problem} {m m' : Memory}
    {ts : List BranchTree} :
    ExploresAll s seen ps m ts leftOut m' → ps ≠ [] → leavesAll ts ≠ []
  | .nil, h => absurd rfl h
  | .enough ht _ _, _ => by
    rw [leavesAll]
    exact List.append_ne_nil_of_left_ne_nil ht.leaves_ne_nil _
  | .next ht _ _, _ => by
    rw [leavesAll]
    exact List.append_ne_nil_of_left_ne_nil ht.leaves_ne_nil _
end

mutual
/-- **Branches are left out only behind a leaf that is solved.** -/
theorem Explores.isWhole {p : Problem} {m m' : Memory} {t : BranchTree} :
    Explores s p m t m' → (∀ l ∈ t.leaves, l.solutions = none) → t.isWhole = true
  | .leaf _, _ => by rw [BranchTree.isWhole]
  | .further _ ht, h => ht.isWhole h
  | .fork _ hts, h => by
    rw [leaves] at h
    obtain ⟨rfl, hwhole⟩ := hts.isWhole (by simp) h
    rw [BranchTree.isWhole, hwhole]
    rfl

/-- While nothing is solved, no branch is left out. -/
theorem ExploresAll.isWhole {seen : List Outcome} {ps leftOut : List Problem} {m m' : Memory}
    {ts : List BranchTree} :
    ExploresAll s seen ps m ts leftOut m' → (∀ l ∈ seen, l.solutions = none) →
      (∀ l ∈ leavesAll ts, l.solutions = none) → leftOut = [] ∧ isWholeAll ts = true
  | .nil, _, _ => ⟨rfl, by rw [isWholeAll]⟩
  | .enough (t := t) _ hsettled _, hseen, h => by
    rw [leavesAll, leavesAll, List.append_nil] at h
    have hnone : (Outcome.among (_ ++ t.leaves)).solutions = none :=
      List.findSome?_eq_none_iff.2 (List.forall_mem_append.2 ⟨hseen, h⟩)
    have hsome := (Outcome.isSettled_iff.1 hsettled).1
    rw [hnone] at hsome
    cases hsome
  | .next ht _ hts, hseen, h => by
    rw [leavesAll, List.forall_mem_append] at h
    obtain ⟨rfl, hwhole⟩ := hts.isWhole (List.forall_mem_append.2 ⟨hseen, h.1⟩) h.2
    exact ⟨rfl, by rw [isWholeAll, ht.isWhole h.1, hwhole]; rfl⟩
end

mutual
/-- **A problem unfolds to at most one tree.** -/
theorem Explores.unique {p : Problem} {m m₁ : Memory} {t : BranchTree} :
    Explores s p m t m₁ → ∀ {t' m₂}, Explores s p m t' m₂ → t' = t ∧ m₂ = m₁
  | .leaf h, _, _, h' => by
    cases h' with
    | leaf h' =>
      obtain ⟨heq, rfl⟩ := h'.unique h
      cases heq
      exact ⟨rfl, rfl⟩
    | further h' _ => cases (h'.unique h).1
    | fork h' _ => cases (h'.unique h).1
  | .further h ht, _, _, h' => by
    have ih := @ht.unique
    cases h' with
    | leaf h' => cases (h'.unique h).1
    | further h' ht' =>
      obtain ⟨heq, rfl⟩ := h'.unique h
      cases heq
      exact ih ht'
    | fork h' _ => cases (h'.unique h).1
  | .fork h hts, _, _, h' => by
    have ih := @hts.unique
    cases h' with
    | leaf h' => cases (h'.unique h).1
    | further h' _ => cases (h'.unique h).1
    | fork h' hts' =>
      obtain ⟨heq, rfl⟩ := h'.unique h
      cases heq
      obtain ⟨rfl, rfl, rfl⟩ := ih hts'
      exact ⟨rfl, rfl⟩

/-- What the branches of a fork unfold to is unique. -/
theorem ExploresAll.unique {seen : List Outcome} {ps out : List Problem} {m m₁ : Memory}
    {ts : List BranchTree} :
    ExploresAll s seen ps m ts out m₁ → ∀ {ts' out' m₂}, ExploresAll s seen ps m ts' out' m₂ →
      ts' = ts ∧ out' = out ∧ m₂ = m₁
  | .nil, _, _, _, h' => by
    cases h'
    exact ⟨rfl, rfl, rfl⟩
  | .enough ht hsettled hexhaustive, _, _, _, h' => by
    have ih := @ht.unique
    cases h' with
    | enough ht' _ _ =>
      obtain ⟨rfl, rfl⟩ := ih ht'
      exact ⟨rfl, rfl, rfl⟩
    | next ht' hmore _ =>
      obtain ⟨rfl, rfl⟩ := ih ht'
      exact absurd ⟨hsettled, hexhaustive⟩ hmore
  | .next ht hmore hts, _, _, _, h' => by
    have ih := @ht.unique
    have ihs := @hts.unique
    cases h' with
    | enough ht' hsettled hexhaustive =>
      obtain ⟨rfl, rfl⟩ := ih ht'
      exact absurd ⟨hsettled, hexhaustive⟩ hmore
    | next ht' _ hts' =>
      obtain ⟨rfl, rfl⟩ := ih ht'
      obtain ⟨rfl, rfl, rfl⟩ := ihs hts'
      exact ⟨rfl, rfl, rfl⟩
end

end Problem

/-! ### Outcomes from leaves -/

namespace Outcome

/-- The solutions among leaves are those of the first solved one. -/
theorem among_solutions (leaves : List Outcome) :
    (among leaves).solutions = leaves.findSome? Outcome.solutions := rfl

/-- There are solutions among leaves if one of them is solved. -/
theorem among_isSome {leaves : List Outcome} :
    (among leaves).solutions.isSome = true ↔ 1 ≤ leaves.countP fun l => l.solutions.isSome := by
  rw [among_solutions, List.findSome?_isSome_iff, Nat.succ_le_iff, List.countP_pos_iff]

/-- Closing a branch makes no difference to an outcome that it is merged with. -/
theorem merge_close (o branch : Outcome) (failures : List Failure) :
    o.merge (branch.close failures) = o.merge branch := by
  unfold close
  split <;> rfl

/-- **Merging outcomes puts leaves one behind the other.** -/
theorem merge_among (seen leaves : List Outcome) :
    (among seen).merge (among leaves) = among (seen ++ leaves) := by
  have hcount : ((among seen).solutions.isSome && (among leaves).solutions.isSome) =
      (decide (1 ≤ seen.countP fun l => l.solutions.isSome) &&
        decide (1 ≤ leaves.countP fun l => l.solutions.isSome)) := by
    rw [Bool.eq_iff_iff]
    simp only [Bool.and_eq_true, decide_eq_true_eq, among_isSome]
  rw [merge, hcount, Outcome.mk.injEq]
  refine ⟨?_, ?_, rfl⟩
  · rw [among_solutions, among_solutions, among_solutions, List.findSome?_append]
    cases seen.findSome? Outcome.solutions <;> rfl
  · rw [among, among, among, List.any_append, List.countP_append, Bool.eq_iff_iff]
    simp only [Bool.or_eq_true, Bool.and_eq_true, decide_eq_true_eq]
    constructor
    · rintro (((h | h) | h | h) | h)
      · exact .inl (.inl h)
      · exact .inr (by omega)
      · exact .inl (.inr h)
      · exact .inr (by omega)
      · exact .inr (by omega)
    · rintro ((h | h) | h)
      · exact .inl (.inl (.inl h))
      · exact .inl (.inr (.inl h))
      · by_cases h₁ : 2 ≤ seen.countP fun l => l.solutions.isSome
        · exact .inl (.inl (.inr h₁))
        · by_cases h₂ : 2 ≤ leaves.countP fun l => l.solutions.isSome
          · exact .inl (.inr (.inr h₂))
          · exact .inr ⟨by omega, by omega⟩

/-- Whether information was lacking. -/
def lacks (f : Failure) : Bool := f.kind? == some Failure.Kind.incomplete

/-- What is blamed is the first lack of information, or else the first contradiction. -/
theorem blame_eq (failures : List Failure) :
    blame failures = (failures.find? lacks).getD (failures.headD (.incomplete [])) := by
  unfold blame
  split
  · next f hfind =>
    have hlacks : failures.find? lacks = some f := hfind
    rw [hlacks, Option.getD_some]
  · next hfind =>
    have hlacks : failures.find? lacks = none := hfind
    rw [hlacks, Option.getD_none]

/-- **To blame what a branch is blamed for is to blame its leaves.** -/
theorem blame_append (before : List Failure) {failures : List Failure} (h : failures ≠ [])
    (after : List Failure) :
    blame (before ++ blame failures :: after) = blame (before ++ failures ++ after) := by
  obtain ⟨f, fs, rfl⟩ := List.exists_cons_of_ne_nil h
  simp only [blame_eq, List.find?_append]
  cases hfind : (f :: fs).find? lacks with
  | some g =>
    rw [Option.getD_some, List.find?_cons_of_pos (List.find?_some hfind)]
    cases before.find? lacks <;> rfl
  | none =>
    have hf : ¬ lacks f = true := List.find?_eq_none.1 hfind f List.mem_cons_self
    rw [Option.getD_none, List.headD_cons, List.find?_cons_of_neg hf, Option.or_none]
    cases before <;> rfl

/-- A leaf is a tree of one leaf. -/
theorem IsLeaf.ofLeaves {o : Outcome} (h : o.IsLeaf) : Outcome.ofLeaves [o] = o := by
  obtain ⟨solutions, ambiguous, failure⟩ := o
  cases solutions with
  | some types =>
    obtain rfl : failure = none := h.solved rfl
    simp [Outcome.ofLeaves, among, close]
  | none =>
    obtain ⟨f, hf, -⟩ := h.unsolved rfl
    obtain rfl : failure = some f := hf
    simp [Outcome.ofLeaves, among, close, blame_eq, Option.getD_eq_iff]

/-- **What is blamed** is one of the failures, and information was lacking if it was for one of them. -/
theorem blame_kind {failures : List Failure} (h : failures ≠ []) :
    blame failures ∈ failures ∧ ((blame failures).kind? = some .incomplete ↔
      ∃ f ∈ failures, f.kind? = some .incomplete) := by
  have hlacks : ∀ {f : Failure}, lacks f = true ↔ f.kind? = some .incomplete := beq_iff_eq
  rw [blame_eq]
  cases hfind : failures.find? lacks with
  | some f =>
    have hf : f ∈ failures := List.mem_of_find?_eq_some hfind
    have hkind : f.kind? = some .incomplete := hlacks.1 (List.find?_some hfind)
    exact ⟨hf, fun _ => ⟨f, hf, hkind⟩, fun _ => hkind⟩
  | none =>
    have hnone : ∀ f ∈ failures, f.kind? ≠ some .incomplete := fun f hf hkind =>
      List.find?_eq_none.1 hfind f hf (hlacks.2 hkind)
    obtain ⟨f, fs, rfl⟩ := List.exists_cons_of_ne_nil h
    exact ⟨List.mem_cons_self, fun hkind => absurd hkind (hnone f List.mem_cons_self),
      fun ⟨g, hg, hkind⟩ => absurd hkind (hnone g hg)⟩

/-- The solutions of a tree are those of its first solved leaf. -/
theorem ofLeaves_solutions (leaves : List Outcome) :
    (ofLeaves leaves).solutions = leaves.findSome? Outcome.solutions := close_solutions _ _

/-- A tree without solutions fails for what its leaves are blamed for. -/
theorem ofLeaves_failure {leaves : List Outcome} (h : (ofLeaves leaves).solutions = none) :
    (ofLeaves leaves).failure = some (blame (leaves.filterMap Outcome.failure)) := by
  have hnone : ¬ (among leaves).solutions.isSome = true := by
    rw [among_solutions, ← ofLeaves_solutions, h]
    exact Bool.false_ne_true
  rw [ofLeaves, close, if_neg hnone]

/-- Leaves of which none is solved have failures. -/
theorem failures_ne_nil {leaves : List Outcome} (hne : leaves ≠ []) (hleaf : ∀ l ∈ leaves, l.IsLeaf)
    (hnone : ∀ l ∈ leaves, l.solutions = none) : leaves.filterMap Outcome.failure ≠ [] := by
  obtain ⟨l, ls, rfl⟩ := List.exists_cons_of_ne_nil hne
  obtain ⟨f, hf, -⟩ := (hleaf l List.mem_cons_self).unsolved (hnone l List.mem_cons_self)
  exact List.ne_nil_of_mem (List.mem_filterMap.2 ⟨l, List.mem_cons_self, hf⟩)

/-- As long as no leaf is solved, the failures that a fork keeps can be blamed for those of the leaves. -/
def Stands (failures : List Failure) (leaves : List Outcome) : Prop :=
  (among leaves).solutions = none →
    ∀ after, blame (failures ++ after) = blame (leaves.filterMap Outcome.failure ++ after)

/-- Closing what stands among the leaves gives the outcome of the tree. -/
theorem Stands.close {failures : List Failure} {leaves : List Outcome} (h : Stands failures leaves) :
    (among leaves).close failures = ofLeaves leaves := by
  rw [ofLeaves, Outcome.close, Outcome.close]
  split
  · rfl
  · next hnone =>
    have hblame := h (by simpa using hnone) []
    rw [List.append_nil, List.append_nil] at hblame
    rw [hblame]

/-- A branch more, with its leaves. -/
theorem Stands.append {failures : List Failure} {seen leaves : List Outcome}
    (h : Stands failures seen) (hne : leaves ≠ []) (hleaf : ∀ l ∈ leaves, l.IsLeaf) :
    Stands ((ofLeaves leaves).failuresWith failures) (seen ++ leaves) := by
  intro hnone after
  rw [among_solutions, List.findSome?_append, Option.or_eq_none_iff] at hnone
  obtain ⟨hseen, hleaves⟩ := hnone
  have hunsolved := (ofLeaves_solutions leaves).trans hleaves
  have hfailures := failures_ne_nil hne hleaf (List.findSome?_eq_none_iff.1 hleaves)
  rw [failuresWith, hunsolved, ofLeaves_failure hunsolved, Option.isSome_none, if_neg Bool.false_ne_true,
    List.filterMap_append, Option.toList_some, List.append_assoc, List.singleton_append, h hseen,
    blame_append _ hfailures]

/-- An outcome fails as a kind if its failure is of this kind. -/
theorem failsAs_iff {o : Outcome} {f : Failure} (hnone : o.solutions = none) (hf : o.failure = some f)
    (kind : Failure.Kind) : o.FailsAs kind ↔ f.kind? = some kind := by
  rw [FailsAs, hf]
  exact ⟨fun ⟨_, g, hg, hkind⟩ => Option.some.inj hg ▸ hkind, fun hkind => ⟨hnone, f, rfl, hkind⟩⟩

/-- **How a tree without a solved leaf fails**: information was lacking if it was at some leaf, and
otherwise the constraints cannot hold. -/
theorem ofLeaves_failsAs {leaves : List Outcome} (hne : leaves ≠ []) (hleaf : ∀ l ∈ leaves, l.IsLeaf)
    (hnone : ∀ l ∈ leaves, l.solutions = none) :
    ((ofLeaves leaves).FailsAs .incomplete ↔ ∃ l ∈ leaves, l.FailsAs .incomplete) ∧
      ((ofLeaves leaves).FailsAs .unsatisfiable ↔ ∀ l ∈ leaves, l.FailsAs .unsatisfiable) := by
  have hunsolved := (ofLeaves_solutions leaves).trans (List.findSome?_eq_none_iff.2 hnone)
  obtain ⟨hmem, hlacks⟩ := blame_kind (failures_ne_nil hne hleaf hnone)
  have hfails := failsAs_iff hunsolved (ofLeaves_failure hunsolved)
  have hincomplete : (ofLeaves leaves).FailsAs .incomplete ↔ ∃ l ∈ leaves, l.FailsAs .incomplete := by
    rw [hfails, hlacks]
    constructor
    · rintro ⟨f, hf, hkind⟩
      obtain ⟨l, hl, hlf⟩ := List.mem_filterMap.1 hf
      exact ⟨l, hl, hnone l hl, f, hlf, hkind⟩
    · rintro ⟨l, hl, -, f, hlf, hkind⟩
      exact ⟨f, List.mem_filterMap.2 ⟨l, hl, hlf⟩, hkind⟩
  refine ⟨hincomplete, fun hunsat l hl => ?_, fun hall => ?_⟩
  · obtain ⟨f, hlf, hkind | hkind⟩ := (hleaf l hl).unsolved (hnone l hl)
    · have hboth := (hfails _).1 (hincomplete.2 ⟨l, hl, hnone l hl, f, hlf, hkind⟩)
      rw [(hfails _).1 hunsat] at hboth
      cases hboth
    · exact ⟨hnone l hl, f, hlf, hkind⟩
  · obtain ⟨l, hl, hlf⟩ := List.mem_filterMap.1 hmem
    exact (hfails _).2 ((failsAs_iff (hnone l hl) hlf _).1 (hall l hl))

end Outcome

/-! ### The outcome of a search -/

/-- **A fork unfolds to trees**, if its branches do, and its outcome is that of their leaves. -/
theorem searchBranches_explores {limit : Nat} {search : Problem → Effort → Query (Outcome × Effort)}
    (hspends : Spends limit search)
    (hsearch : ∀ p effort m r m', (search p effort).Answers m r m' → r.2.steps ≤ limit →
      ∃ t, p.Explores s m t m' ∧ r.1 = .ofLeaves t.leaves)
    {ps : List Problem} {seen : List Outcome} {failures : List Failure} {effort : Effort}
    {r : Outcome × Effort} (hseen : Outcome.Stands failures seen)
    (h : (searchBranches s.options.exhaustive search ps (.among seen) failures effort).Answers m r m')
    (hsteps : r.2.steps ≤ limit) :
    ∃ ts leftOut, Problem.ExploresAll s seen ps m ts leftOut m' ∧
      r.1 = .ofLeaves (seen ++ leavesAll ts) := by
  induction ps generalizing seen failures effort m with
  | nil =>
    obtain ⟨rfl, rfl⟩ := answers_pure.1 h
    refine ⟨[], [], .nil, ?_⟩
    rw [leavesAll, List.append_nil]
    exact hseen.close
  | cons p ps ih =>
    obtain ⟨⟨branch, effort₁⟩, m₁, hbranch, hleast, hcalm, hgoes⟩ := hspends.cons h hsteps
    obtain ⟨t, ht, hleaves⟩ := hsearch p effort m _ m₁ hbranch (hleast.steps.trans hsteps)
    obtain rfl : branch = .ofLeaves t.leaves := hleaves
    have hstands := hseen.append ht.leaves_ne_nil ht.isLeaf
    have hmerge : (Outcome.among seen).merge (.ofLeaves t.leaves) = .among (seen ++ t.leaves) :=
      (Outcome.merge_close _ _ _).trans (Outcome.merge_among seen t.leaves)
    cases hgoes with
    | runaway hrun => exact absurd hrun (Bool.eq_false_iff.1 hcalm)
    | stop _ hsettled hquick =>
      rw [hmerge] at hsettled ⊢
      refine ⟨[t], ps, .enough ht hsettled hquick, ?_⟩
      rw [leavesAll, leavesAll, List.append_nil]
      exact hstands.close
    | next _ hmore hrest =>
      rw [hmerge] at hmore hrest
      obtain ⟨ts, leftOut, hts, hr⟩ := ih hstands hrest
      refine ⟨t :: ts, leftOut, .next ht hmore hts, ?_⟩
      rw [leavesAll, ← List.append_assoc]
      exact hr

/-- **The outcome of a search is that of the leaves it comes upon**, if it stays within the limit. -/
theorem searchWithin_explores (s : Setting) (n : Nat) (p : Problem) (effort : Effort) (m : Memory)
    (r : Outcome × Effort) (m' : Memory) (h : (searchWithin s n p effort).Answers m r m')
    (hsteps : r.2.steps ≤ s.options.maxSteps) :
    ∃ t, p.Explores s m t m' ∧ r.1 = .ofLeaves t.leaves := by
  induction n generalizing p effort m r m' with
  | zero => exact absurd h answers_throw
  | succ n ih =>
    rw [searchWithin_succ] at h
    split at h
    · next hlt =>
      obtain ⟨rfl, rfl⟩ := answers_pure.1 h
      exact absurd hsteps (Nat.not_le.2 hlt)
    · obtain ⟨progress, m₁, hadvance, h⟩ := answers_bind.1 h
      cases progress with
      | done o =>
        obtain ⟨rfl, rfl⟩ := answers_pure.1 h
        refine ⟨.leaf o, .leaf hadvance, ?_⟩
        rw [leaves]
        exact (p.advance_comes _ _ _ hadvance).isLeaf.ofLeaves.symm
      | further p' =>
        obtain ⟨t, ht, hleaves⟩ := ih p' _ m₁ r m' h hsteps
        exact ⟨t, .further hadvance ht, hleaves⟩
      | fork branches =>
        have hstands : Outcome.Stands [] [] := fun _ _ => rfl
        obtain ⟨ts, leftOut, hts, hleaves⟩ :=
          searchBranches_explores (searchWithin_spends s n) ih hstands h hsteps
        refine ⟨.fork ts leftOut, .fork hadvance hts, ?_⟩
        rw [leaves]
        exact hleaves

/-- **The outcome of the tree of branches.** A search within the limit on reductions explores exactly one
tree. It finds solutions if and only if a leaf of the tree is solved, for all unknowns, and they are
those of the first such leaf. If it finds none, then it has seen the whole tree; it says that
information was lacking if and only if that is how some leaf ended, and that the constraints cannot
hold if and only if that is how all leaves ended. -/
theorem searchWithin_leaves {n : Nat} {effort e : Effort} {o : Outcome}
    (h : (searchWithin s n p effort).Answers m (o, e) m') (hsteps : e.steps ≤ s.options.maxSteps) :
    ∃ t, (∀ t' m₁, p.Explores s m t' m₁ ↔ t' = t ∧ m₁ = m') ∧
      (∀ l ∈ t.leaves, ∀ types, l.solutions = some types → types.length = p.unknowns.length) ∧
      (o.solutions.isSome = true ↔ ∃ l ∈ t.leaves, l.solutions.isSome = true) ∧
      o.solutions = t.leaves.findSome? Outcome.solutions ∧
      (o.solutions = none → t.isWhole = true ∧
        (o.FailsAs .incomplete ↔ ∃ l ∈ t.leaves, l.FailsAs .incomplete) ∧
        (o.FailsAs .unsatisfiable ↔ ∀ l ∈ t.leaves, l.FailsAs .unsatisfiable)) := by
  obtain ⟨t, ht, hleaves⟩ := searchWithin_explores s n p effort m _ m' h hsteps
  obtain rfl : o = .ofLeaves t.leaves := hleaves
  have hsolutions := Outcome.ofLeaves_solutions t.leaves
  refine ⟨t, fun t' m₁ => ⟨ht.unique, ?_⟩, fun l hl types htypes => (ht.comes l hl).length_eq htypes, ?_,
    hsolutions, fun hunsolved => ?_⟩
  · rintro ⟨rfl, rfl⟩
    exact ht
  · rw [hsolutions, List.findSome?_isSome_iff]
  have hnone : ∀ l ∈ t.leaves, l.solutions = none :=
    List.findSome?_eq_none_iff.1 (hsolutions.symm.trans hunsolved)
  exact ⟨ht.isWhole hnone, Outcome.ofLeaves_failsAs ht.leaves_ne_nil ht.isLeaf hnone⟩

/-- An unknown that nothing is said about, the `E` of `ArrayList`, and the claim that `String & Number` is
below `String`. -/
def bothBelowString : Problem where
  unknowns := [{ var := ⟨"ArrayList", "E", .param 0⟩ }]
  pending := [{
    lhs := .inter ⟨.given 0, [0]⟩
      [.nominal ⟨.given 0, [0]⟩ "String" [], .nominal ⟨.given 0, [9]⟩ "Number" []]
    rel := .below
    rhs := .nominal ⟨.given 1, [0]⟩ "String" [] }]

/-- Of its two branches one lacks information on `E` and the other one meets a contradiction; that
information was lacking is reported. -/
theorem searchWithin_leaves_lacking :
    let s : Setting := { catalog := .standard }
    ∃ o e m', (searchWithin s (advancesAtMost s bothBelowString) bothBelowString {}).Answers {} (o, e) m' ∧
      e.steps ≤ s.options.maxSteps ∧ o.solutions = none ∧ o.FailsAs .incomplete ∧
        ∃ t, bothBelowString.Explores s {} t m' ∧ t.isWhole = true ∧
          (∃ l ∈ t.leaves, l.FailsAs .incomplete) ∧ ¬ ∀ l ∈ t.leaves, l.FailsAs .unsatisfiable := by
  intro s
  obtain ⟨⟨o, e⟩, m', hsearch, htest⟩ : ∃ r m',
      (searchWithin s (advancesAtMost s bothBelowString) bothBelowString {}).Answers {} r m' ∧
        decide (r.2.steps ≤ s.options.maxSteps ∧
          r.1 = { failure := some (.incomplete ["E"]) }) = true :=
    exists_answers (by decide +kernel)
  obtain ⟨hsteps, rfl⟩ : e.steps ≤ s.options.maxSteps ∧ o = { failure := some (.incomplete ["E"]) } :=
    of_decide_eq_true htest
  obtain ⟨t, honly, -, -, -, hunsolved⟩ := searchWithin_leaves hsearch hsteps
  obtain ⟨hwhole, hincomplete, hunsat⟩ := hunsolved rfl
  have hfails : Outcome.FailsAs .incomplete { failure := some (.incomplete ["E"]) } := ⟨rfl, _, rfl, rfl⟩
  refine ⟨_, e, m', hsearch, hsteps, rfl, hfails, t, (honly t m').2 ⟨rfl, rfl⟩, hwhole,
    hincomplete.1 hfails, fun hall => ?_⟩
  obtain ⟨-, f, hf, hkind⟩ := hunsat.2 hall
  cases hf
  cases hkind

end Generics.Inference
