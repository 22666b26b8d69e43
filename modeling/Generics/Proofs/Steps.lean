/-
# What a step comes to

A problem is advanced by reducing its oldest constraint or by settling its unknowns. Whatever is asked
on the way (`Problem.advance_comes`):

- a problem that is done met a contradiction, or has nothing left to do;
- a problem that forks has branches;
- unknowns stay, and so do their solutions.

No catalog and no memory can make this wrong, so nothing is assumed of them.
-/

import Generics.Proofs.Fillings

namespace Generics

/-- All answers of the question have the property. -/
def Query.Yields {α : Type} (P : α → Prop) (q : Query α) : Prop :=
  ∀ m a m', q.Answers m a m' → P a

namespace Query.Yields

variable {α β : Type} {P : β → Prop}

/-- An answer that has the property is one that the question yields. -/
theorem pure {b : β} (h : P b) : Yields P (pure b : Query β) := by
  intro m a m' ha
  obtain ⟨rfl, rfl⟩ := answers_pure.1 ha
  exact h

/-- What comes after a question yields what it does after every answer. -/
theorem bind {q : Query α} {f : α → Query β} (h : ∀ a, Yields P (f a)) : Yields P (q >>= f) := by
  intro m b m' hb
  obtain ⟨a, m₁, -, hf⟩ := answers_bind.1 hb
  exact h a m₁ b m' hf

end Query.Yields

namespace Inference

open Query

variable {s : Setting}

/-- The property holds, or constraints contradict each other. -/
def OrContradiction {α : Type} (P : α → Prop) : Except Failure α → Prop
  | .ok a => P a
  | .error f => f.kind? = some .unsatisfiable

/-- A weaker property may hold instead. -/
theorem OrContradiction.map {α β : Type} {P : α → Prop} {P' : β → Prop} {g : α → β}
    {r : Except Failure α} (h : OrContradiction P r) (hg : ∀ a, P a → P' (g a)) :
    OrContradiction P' (r.map g) := by
  cases r with
  | ok a => exact hg a h
  | error f => exact h

/-! ### Reducing a constraint -/

/-- What may become of a constraint: it is filed with the unknowns, there is something to choose from, or
it is a contradiction. -/
def Reduction.Sensible (us : List Unknown) : Reduction → Prop
  | .filed us' => List.Forall₂ Unknown.Extends us us'
  | .allOf _ => True
  | .oneOf cs => cs ≠ []
  | .refuted f => f.kind? = some .unsatisfiable

namespace Constraint

variable (us : List Unknown)

/-- Branching between constraints and a contradiction is sensible. -/
theorem sensible_ite {cond : Prop} [Decidable cond] (cs : List Constraint) (c : Constraint) :
    Reduction.Sensible us (if cond then .allOf cs else .refuted c.failure) := by
  split
  · trivial
  · rfl

/-- Reducing a comparison of applied declarations is sensible. -/
theorem reduceNominal_sensible (c : Constraint) (a b : Nominal) :
    Yields (Reduction.Sensible us) (c.reduceNominal s a b) := by
  rw [reduceNominal_eq]
  refine .bind fun meeting => ?_
  cases meeting with
  | never => exact .pure rfl
  | always => exact .pure trivial
  | found args =>
    dsimp only
    split
    · exact .pure trivial
    · exact .pure rfl

/-- Reducing a comparison with an array is sensible. -/
theorem reduceArray_sensible (c : Constraint) (a b : Ty) :
    (c.reduceArray a b).Sensible us := by
  unfold reduceArray
  split
  · exact sensible_ite us [] c
  · trivial

/-- Reducing a comparison is sensible. -/
theorem reduceBelow_sensible (c : Constraint) (a b : Ty) :
    Yields (Reduction.Sensible us) (c.reduceBelow s a b) := by
  unfold reduceBelow
  split
  · exact c.reduceNominal_sensible us _ _
  · exact .pure trivial
  · exact .pure trivial
  · exact .pure trivial
  · exact .bind fun _ => .pure (List.append_ne_nil_of_right_ne_nil _ (List.cons_ne_nil _ _))
  · next hmembers _ _ => exact .pure (mt List.map_eq_nil_iff.1 hmembers)
  · split
    · exact .pure trivial
    · exact .bind fun _ => .bind fun _ => .pure (List.cons_ne_nil _ _)
  · exact .bind fun _ => .pure trivial
  · exact .bind fun _ => .pure trivial
  · exact .pure (c.reduceArray_sensible us _ _)
  · exact .pure (sensible_ite us [] c)
  · exact .pure (sensible_ite us [] c)
  · exact .pure rfl

/-- Reducing an equation is sensible. -/
theorem reduceEqual_sensible (c : Constraint) (a b : Ty) :
    (c.reduceEqual a b).Sensible us := by
  unfold reduceEqual
  split
  · split
    · rfl
    · split <;> trivial
  · trivial

/-- Reducing a constraint without unknowns is sensible. -/
theorem reduceRigid_sensible (c : Constraint) :
    Yields (Reduction.Sensible us) (c.reduceRigid s) := by
  unfold reduceRigid
  split
  · exact c.reduceBelow_sensible us _ _
  · exact c.reduceBelow_sensible us _ _
  · exact .pure (c.reduceEqual_sensible us _ _)

end Constraint

namespace Unknown

/-- Filing a constraint with an unknown extends it, or is a contradiction. -/
theorem file_extends (u : Unknown) (c : Constraint) : OrContradiction u.Extends (u.file c) := by
  cases hfile : u.file c with
  | ok u' =>
    rcases file_eq_ok hfile with ⟨-, -, rfl⟩ | rfl
    · exact .refl u'
    · exact u.add_extends c
  | error f =>
    unfold file at hfile
    split at hfile
    · split at hfile
      · cases hfile
      · cases hfile
        rfl
    · cases hrel : c.rel <;> rw [hrel] at hfile <;> cases hfile

/-- Filing by key extends the unknowns, or is a contradiction. -/
theorem fileWith_extends (key : VarKey) (c : Constraint) (us : List Unknown) :
    OrContradiction (List.Forall₂ Extends us) (fileWith key c us) := by
  induction us with
  | nil => exact .nil
  | cons u us ih =>
    rw [fileWith]
    split
    · exact (u.file_extends c).map fun _ h => .cons h (Problem.forall₂_extends_refl us)
    · exact ih.map fun _ h => .cons (.refl u) h

end Unknown

namespace Problem

/-- Filing a constraint in a problem is sensible. -/
theorem file_sensible (p : Problem) (key : VarKey) (c : Constraint) :
    (p.file key c).Sensible p.unknowns := by
  have h := Unknown.fileWith_extends key c p.unknowns
  unfold file
  cases hwith : Unknown.fileWith key c p.unknowns with
  | ok us => rwa [hwith] at h
  | error f => rwa [hwith] at h

/-- **Reducing a constraint is sensible.** -/
theorem reduce_sensible (p : Problem) (c : Constraint) :
    Yields (Reduction.Sensible p.unknowns) (p.reduce s c) := by
  refine .bind fun c' => ?_
  split
  · split
    · exact c'.reduceRigid_sensible _
    · exact .pure (p.file_sensible _ _)
  · split
    · split
      · exact c'.reduceRigid_sensible _
      · exact .pure (p.file_sensible _ _)
    · exact c'.reduceRigid_sensible _

/-- What is sensible for all unknowns alike is filed with none of them. -/
theorem reduceRigid_ne_filed {c : Constraint} {us : List Unknown} {m m' : Memory} :
    ¬ (c.reduceRigid s).Answers m (.filed us) m' := by
  intro h
  have hall : ∀ us₀, List.Forall₂ Unknown.Extends us₀ us := fun us₀ =>
    c.reduceRigid_sensible us₀ _ _ _ h
  have hnone := (hall []).length_eq
  have hone := (hall [{ var := ⟨"", "", .free 0⟩ }]).length_eq
  exact absurd (hone.trans hnone.symm) (by decide)

/-- **What is filed with an unknown** is the constraint with closed unknowns replaced, turned so that the
unknown is on the left, and it faces no intersection. -/
theorem reduce_filed {p : Problem} {c : Constraint} {us : List Unknown} {m m' : Memory}
    (h : (p.reduce s c).Answers m (.filed us) m') :
    ∃ c' d w, c.Becomes (p.solutionsWhere Unknown.closed) c' ∧ (d = c' ∨ d = c'.flip) ∧
      d.lhs = .var (.declared w) ∧ d.rhs.isInter = false ∧ p.isUnknown w.key = true ∧
        Unknown.fileWith w.key d p.unknowns = .ok us := by
  obtain ⟨c', m₁, hreplace, h⟩ := answers_bind.1 h
  have hbec := (Constraint.replace_builds hreplace).1
  have hfile : ∀ {key : VarKey} {d : Constraint} {m m' : Memory},
      (pure (p.file key d) : Query Reduction).Answers m (.filed us) m' →
        Unknown.fileWith key d p.unknowns = .ok us := by
    intro key d m m' h
    obtain ⟨h, -⟩ := answers_pure.1 h
    rw [file] at h
    cases hwith : Unknown.fileWith key d p.unknowns with
    | ok us' =>
      rw [hwith] at h
      cases h
      rfl
    | error f =>
      rw [hwith] at h
      cases h
  split at h
  · next key hkey =>
    obtain ⟨w, hw, rfl, hunknown⟩ := unknown?_eq_some hkey
    split at h
    · exact absurd h reduceRigid_ne_filed
    · next hflat =>
      exact ⟨c', c', w, hbec, .inl rfl, hw, Bool.eq_false_iff.2 hflat, hunknown, hfile h⟩
  · split at h
    · next key hkey =>
      obtain ⟨w, hw, rfl, hunknown⟩ := unknown?_eq_some hkey
      split at h
      · exact absurd h reduceRigid_ne_filed
      · next hflat =>
        exact ⟨c', c'.flip, w, hbec, .inr rfl, hw, Bool.eq_false_iff.2 hflat, hunknown, hfile h⟩
    · exact absurd h reduceRigid_ne_filed

end Problem

/-! ### Settling unknowns -/

namespace Unknown

/-- Handing solutions to an unknown extends it. -/
theorem hand_extends (σ : Subst) (u : Unknown) : Yields (fun r => u.Extends r.1) (u.hand σ) := by
  unfold hand
  split
  · exact .pure (.refl u)
  · refine .bind fun _ => .bind fun _ => .bind fun _ => ?_
    split
    · exact .pure ⟨rfl, fun _ => id⟩
    · exact .pure ⟨rfl, fun _ => id⟩

/-- Handing solutions to unknowns extends them. -/
theorem handAll_extends (σ : Subst) (us : List Unknown) :
    Yields (fun r => List.Forall₂ Extends us r.1) (handAll σ us) := by
  induction us with
  | nil => exact .pure .nil
  | cons u us ih =>
    intro m r m' h
    obtain ⟨⟨u', cs⟩, m₁, hu, h⟩ := answers_bind.1 h
    obtain ⟨⟨us', more⟩, m₂, hus, h⟩ := answers_bind.1 h
    obtain ⟨rfl, rfl⟩ := answers_pure.1 h
    exact .cons (u.hand_extends σ _ _ _ hu) (ih _ _ _ hus)

/-- Picking a solution extends an unknown, or is a contradiction. -/
theorem pick_extends (mentions : Ty → Bool) (u : Unknown) :
    Yields (OrContradiction u.Extends) (u.pick s mentions) := by
  unfold pick
  split
  · next hclear =>
    have hnone : u.solution = none := by simp [hasClearBounds] at hclear; exact hclear.1.1.2
    refine .bind fun clash => ?_
    cases clash with
    | some c => exact .pure rfl
    | none =>
      refine .bind fun chosen => ?_
      cases chosen with
      | some c => exact .pure ⟨rfl, fun t ht => by rw [hnone] at ht; cases ht⟩
      | none => exact .pure (.refl u)
  · exact .pure (.refl u)

/-- Picking solutions extends unknowns, or is a contradiction. -/
theorem pickAll_extends (mentions : Ty → Bool) (us : List Unknown) :
    Yields (OrContradiction (List.Forall₂ Extends us)) (pickAll s mentions us) := by
  induction us with
  | nil => exact .pure .nil
  | cons u us ih =>
    intro m r m' h
    obtain ⟨r₁, m₁, hpick, h⟩ := answers_bind.1 h
    have hu := u.pick_extends mentions _ _ _ hpick
    cases r₁ with
    | error f =>
      obtain ⟨rfl, rfl⟩ := answers_pure.1 h
      exact hu
    | ok u' =>
      obtain ⟨r₂, m₂, hrest, h⟩ := answers_bind.1 h
      obtain ⟨rfl, rfl⟩ := answers_pure.1 h
      exact (ih _ _ _ hrest).map fun _ hus => .cons hu hus

end Unknown

namespace Problem

/-- The unknowns of the one problem are those of the other one, and their solutions stay. -/
def Keeps (p p' : Problem) : Prop := List.Forall₂ Unknown.Extends p.unknowns p'.unknowns

/-- A problem keeps its own solutions. -/
theorem Keeps.refl (p : Problem) : p.Keeps p := forall₂_extends_refl _

/-- Solutions that are kept twice are kept. -/
theorem Keeps.trans {p₁ p₂ p₃ : Problem} (h₁ : p₁.Keeps p₂) (h₂ : p₂.Keeps p₃) : p₁.Keeps p₃ :=
  forall₂_extends_trans h₁ h₂

/-- Promoting keeps solutions. -/
theorem promote_keeps (p : Problem) : p.Keeps p.promote :=
  List.forall₂_map_right_iff.2 (List.forall₂_same.2 fun u _ => u.promote_extends p.mentions)

/-- Handing solutions on keeps them. -/
theorem hand_keeps (p : Problem) : Yields p.Keeps p.hand := by
  intro m p' m' h
  obtain ⟨⟨us, cs⟩, m₁, hus, h⟩ := answers_bind.1 h
  obtain ⟨rfl, rfl⟩ := answers_pure.1 h
  exact Unknown.handAll_extends _ _ _ _ _ hus

/-- Settling keeps solutions. -/
theorem settle_keeps (n : Nat) (p : Problem) : Yields p.Keeps (settle n p) := fun _ _ _ h =>
  settle_induct (P := fun q _ => p.Keeps q) (fun q _ hq => hq.trans q.promote_keeps)
    (fun q m₁ q' m₂ hq hhand => hq.trans (q.hand_keeps m₁ q' m₂ hhand)) (.refl p) h

/-- Picking keeps solutions, or is a contradiction. -/
theorem pick_keeps (p : Problem) : Yields (OrContradiction p.Keeps) (p.pick s) := by
  intro m r m' h
  obtain ⟨r', m₁, hpicks, h⟩ := answers_bind.1 h
  obtain ⟨rfl, rfl⟩ := answers_pure.1 h
  exact (Unknown.pickAll_extends _ _ _ _ _ hpicks).map fun _ hus => hus

/-! ### A step -/

/-- What a step may come to. -/
def Comes (p : Problem) : Progress → Prop
  | .further p' => p.Keeps p'
  | .fork ps => ps ≠ [] ∧ ∀ p' ∈ ps, p.Keeps p'
  | .done o => (∃ f, f.kind? = some .unsatisfiable ∧ o = { failure := some f }) ∨
      ∃ p', p.Keeps p' ∧ o = p'.outcome

/-- **Advancing by a constraint keeps solutions**, in every branch. -/
theorem advanceBy_comes (p : Problem) (c : Constraint) (rest : List Constraint) :
    Yields p.Comes (p.advanceBy s c rest) := by
  intro m progress m' h
  obtain ⟨r, m₁, hreduce, h⟩ := answers_bind.1 h
  have hr := reduce_sensible _ c _ _ _ hreduce
  cases r with
  | filed us =>
    obtain ⟨rfl, rfl⟩ := answers_pure.1 h
    exact hr
  | allOf cs =>
    obtain ⟨rfl, rfl⟩ := answers_pure.1 h
    exact forall₂_extends_refl p.unknowns
  | oneOf cs =>
    obtain ⟨rfl, rfl⟩ := answers_pure.1 h
    refine ⟨mt List.map_eq_nil_iff.1 hr, fun p' hp' => ?_⟩
    obtain ⟨d, -, rfl⟩ := List.mem_map.1 hp'
    exact forall₂_extends_refl p.unknowns
  | refuted f =>
    obtain ⟨rfl, rfl⟩ := answers_pure.1 h
    exact .inl ⟨f, hr, rfl⟩

/-- **Advancing a settled problem keeps solutions**, in every branch. -/
theorem advanceSettled_comes (p : Problem) : Yields p.Comes (p.advanceSettled s) := by
  intro m progress m' h
  obtain ⟨p₁, m₁, hsettle, h⟩ := answers_bind.1 h
  have hkept := settle_keeps _ p _ _ _ hsettle
  split at h
  · obtain ⟨r, m₂, hpick, h⟩ := answers_bind.1 h
    have hpicked := p₁.pick_keeps _ _ _ hpick
    cases r with
    | error f =>
      obtain ⟨rfl, rfl⟩ := answers_pure.1 h
      exact .inl ⟨f, hpicked, rfl⟩
    | ok p₂ =>
      dsimp only at h
      split at h
      · obtain ⟨rfl, rfl⟩ := answers_pure.1 h
        exact hkept.trans hpicked
      · obtain ⟨rfl, rfl⟩ := answers_pure.1 h
        exact .inr ⟨p₂, hkept.trans hpicked, rfl⟩
  · obtain ⟨rfl, rfl⟩ := answers_pure.1 h
    exact hkept

/-- **What a step comes to.** -/
theorem advance_comes (p : Problem) : Yields p.Comes (p.advance s) := by
  unfold advance
  split
  · exact p.advanceBy_comes _ _
  · exact p.advanceSettled_comes

end Problem

end Inference
end Generics
