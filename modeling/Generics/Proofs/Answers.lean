/-
# What a question answers

A question is a computation that may fail and that changes a memory. `Query.Answers q m a m'`
says that `q`, asked with the memory `m`, answers `a` and leaves the memory `m'`. The lemmas
take a question apart along the way it is put together: an answer of a sequence is an answer
of its first part followed by one of the rest (`answers_bind`), and the connectives `both`,
`either`, `all`, `any` and `first?` answer what their parts answer, asked in order and no
further than needed.

The lemmas are equivalences, so they serve in both directions: to see what an answer rests on,
and to show that a question is answered.

`Query.Decides I q P` says that whenever `q` answers in a memory with the property `I`, it says
whether `P` holds and leaves a memory with the property `I`. Questions that decide are put
together by the connectives to questions that decide the conjunction or disjunction.
-/

import Generics.Query.Basic

namespace Generics
namespace Query

variable {α β : Type} {q : Query α} {m m' : Memory}

/-- The question, asked with the memory `m`, answers `a` and leaves the memory `m'`. -/
def Answers (q : Query α) (m : Memory) (a : α) (m' : Memory) : Prop :=
  q.outcome m = (.ok a, m')

/-- **A question has at most one answer.** -/
theorem Answers.unique {a b : α} {m₁ m₂ : Memory} (h₁ : q.Answers m a m₁)
    (h₂ : q.Answers m b m₂) : a = b ∧ m₁ = m₂ := by
  have h : (Except.ok a, m₁) = ((Except.ok b : Except Failure α), m₂) := h₁.symm.trans h₂
  injection h with h₁ h₂
  injection h₁ with h₁
  exact ⟨h₁, h₂⟩

/-- A pure question answers with its value, and the memory stays. -/
@[simp] theorem answers_pure {a b : α} :
    (pure a : Query α).Answers m b m' ↔ b = a ∧ m' = m := by
  constructor
  · intro h
    have h' : ((Except.ok a : Except Failure α), m) = (.ok b, m') := h
    injection h' with h₁ h₂
    injection h₁ with h₁
    exact ⟨h₁.symm, h₂.symm⟩
  · rintro ⟨rfl, rfl⟩
    rfl

/-- A question that throws does not answer. -/
@[simp] theorem answers_throw {f : Failure} {a : α} :
    ¬ (throw f : Query α).Answers m a m' := by
  intro h
  have h' : ((Except.error f : Except Failure α), m) = (.ok a, m') := h
  injection h' with h₁ _
  cases h₁

/-- **A sequence asks its first part, and the rest in the memory that leaves.** -/
theorem outcome_bind (q : Query α) (f : α → Query β) (m : Memory) :
    (q >>= f).outcome m =
      match q.outcome m with
      | (.ok a, m₁) => (f a).outcome m₁
      | (.error e, m₁) => (.error e, m₁) := by
  show (ExceptT.bind q f).run.run m = _
  simp only [ExceptT.bind, outcome, ExceptT.run, ExceptT.mk, ExceptT.bindCont, bind, StateT.bind,
    StateT.run]
  rcases q m with ⟨(e | a), m₁⟩ <;> rfl

/-- Where its first part answers, a sequence does what the rest does then. -/
theorem outcome_bind_of {f : α → Query β} {a : α} (h : q.Answers m a m') :
    (q >>= f).outcome m = (f a).outcome m' := by
  rw [outcome_bind, show q.outcome m = (.ok a, m') from h]

/-- **An answer of a sequence is an answer of its first part followed by one of the rest.** -/
theorem answers_bind {f : α → Query β} {b : β} :
    (q >>= f).Answers m b m' ↔ ∃ a m₁, q.Answers m a m₁ ∧ (f a).Answers m₁ b m' := by
  unfold Answers
  rw [outcome_bind]
  rcases hq : q.outcome m with ⟨(e | a), m₁⟩
  · constructor
    · intro h
      injection h with h _
      cases h
    · rintro ⟨a, m₂, h, _⟩
      injection h with h _
      cases h
  · constructor
    · intro h
      exact ⟨a, m₁, rfl, h⟩
    · rintro ⟨a', m₂, h, h'⟩
      injection h with h₁ h₂
      injection h₁ with h₁
      rw [h₁, h₂]
      exact h'

/-- What is found is one of those that were asked about. -/
theorem first?_mem {ask : α → Query Bool} {as : List α} {a : α}
    (h : (first? ask as).Answers m (some a) m') : a ∈ as := by
  induction as generalizing m with
  | nil =>
    obtain ⟨hnone, _⟩ := answers_pure.1 h
    cases hnone
  | cons b bs ih =>
    rw [first?] at h
    obtain ⟨r, m₁, _, h⟩ := answers_bind.1 h
    cases r with
    | true =>
      obtain ⟨heq, _⟩ := answers_pure.1 h
      cases heq
      exact List.mem_cons_self
    | false => exact List.mem_cons_of_mem _ (ih h)

/-- A test of the answer that can be computed. -/
theorem exists_answers {test : α → Bool} (h : (q.outcome m).1.map test = .ok true) :
    ∃ a m', q.Answers m a m' ∧ test a = true := by
  cases hq : q.outcome m with
  | mk r m' =>
    rw [hq] at h
    cases r with
    | error f => cases h
    | ok a => exact ⟨a, m', hq, Except.ok.inj h⟩

/-- Asking for the memory answers with it, and leaves it as it is. -/
@[simp] theorem answers_get {a : Memory} :
    (get : Query Memory).Answers m a m' ↔ a = m ∧ m' = m := by
  constructor
  · intro h
    have h' : ((Except.ok m : Except Failure Memory), m) = (.ok a, m') := h
    injection h' with h₁ h₂
    injection h₁ with h₁
    exact ⟨h₁.symm, h₂.symm⟩
  · rintro ⟨rfl, rfl⟩
    rfl

/-- A change of the memory leaves the changed memory. -/
@[simp] theorem answers_modify {f : Memory → Memory} {u : Unit} :
    (modify f : Query Unit).Answers m u m' ↔ m' = f m := by
  constructor
  · intro h
    have h' : ((Except.ok () : Except Failure Unit), f m) = (.ok u, m') := h
    injection h' with _ h₂
    exact h₂.symm
  · rintro rfl
    rfl

/-- Two questions are both answered yes if the second one is, after the first one was; no answer to the
first one is final. -/
theorem answers_both {first second : Query Bool} {r : Bool} :
    (both first second).Answers m r m' ↔
      (∃ m₁, first.Answers m true m₁ ∧ second.Answers m₁ r m') ∨
        (first.Answers m false m' ∧ r = false) := by
  unfold both
  rw [answers_bind]
  constructor
  · rintro ⟨a, m₁, h, h'⟩
    cases a with
    | true => exact .inl ⟨m₁, h, h'⟩
    | false =>
      obtain ⟨rfl, rfl⟩ := answers_pure.1 h'
      exact .inr ⟨h, rfl⟩
  · rintro (⟨m₁, h, h'⟩ | ⟨h, rfl⟩)
    · exact ⟨true, m₁, h, h'⟩
    · exact ⟨false, m', h, answers_pure.2 ⟨rfl, rfl⟩⟩

/-- Of two questions the second one is asked only if the first one was answered no. -/
theorem answers_either {first second : Query Bool} {r : Bool} :
    (either first second).Answers m r m' ↔
      (∃ m₁, first.Answers m false m₁ ∧ second.Answers m₁ r m') ∨
        (first.Answers m true m' ∧ r = true) := by
  unfold either
  rw [answers_bind]
  constructor
  · rintro ⟨a, m₁, h, h'⟩
    cases a with
    | false => exact .inl ⟨m₁, h, h'⟩
    | true =>
      obtain ⟨rfl, rfl⟩ := answers_pure.1 h'
      exact .inr ⟨h, rfl⟩
  · rintro (⟨m₁, h, h'⟩ | ⟨h, rfl⟩)
    · exact ⟨false, m₁, h, h'⟩
    · exact ⟨true, m', h, answers_pure.2 ⟨rfl, rfl⟩⟩

/-- Asked with a memory of the given kind, the question, if it answers, says whether `P` holds,
and it leaves a memory of that kind. -/
def Decides (I : Memory → Prop) (q : Query Bool) (P : Prop) : Prop :=
  ∀ m r m', I m → q.Answers m r m' → I m' ∧ (r = true ↔ P)

namespace Decides

variable {I : Memory → Prop} {first second : Query Bool} {P Q : Prop}

/-- A question that decides a proposition decides all that are equivalent to it. -/
theorem congr (h : Decides I first P) (hPQ : P ↔ Q) : Decides I first Q := by
  intro m r m' hm hr
  obtain ⟨hm', hP⟩ := h m r m' hm hr
  exact ⟨hm', hP.trans hPQ⟩

/-- Answering yes decides what holds. -/
theorem pure_true (hP : P) : Decides I (pure true) P := by
  intro m r m' hm hr
  obtain ⟨rfl, rfl⟩ := answers_pure.1 hr
  exact ⟨hm, fun _ => hP, fun _ => rfl⟩

/-- Answering no decides what does not hold. -/
theorem pure_false (hP : ¬ P) : Decides I (pure false) P := by
  intro m r m' hm hr
  obtain ⟨rfl, rfl⟩ := answers_pure.1 hr
  exact ⟨hm, fun h => absurd h Bool.false_ne_true, fun h => absurd h hP⟩

/-- A value known beforehand decides what it is true for. -/
theorem of_pure {b : Bool} (h : b = true ↔ P) : Decides I (pure b) P := by
  cases b with
  | true => exact pure_true (h.1 rfl)
  | false => exact pure_false fun hP => Bool.false_ne_true (h.2 hP)

/-- **The conjunction of two questions decides the conjunction.** -/
theorem both (h₁ : Decides I first P) (h₂ : P → Decides I second Q) :
    Decides I (Query.both first second) (P ∧ Q) := by
  intro m r m' hm hr
  rcases answers_both.1 hr with ⟨m₁, ha, hb⟩ | ⟨ha, rfl⟩
  · obtain ⟨hm₁, hP⟩ := h₁ m true m₁ hm ha
    obtain ⟨hm', hQ⟩ := h₂ (hP.1 rfl) m₁ r m' hm₁ hb
    exact ⟨hm', fun h => ⟨hP.1 rfl, hQ.1 h⟩, fun h => hQ.2 h.2⟩
  · obtain ⟨hm', hP⟩ := h₁ m false m' hm ha
    exact ⟨hm', fun h => absurd h Bool.false_ne_true, fun h => hP.2 h.1⟩

/-- **The disjunction of two questions decides the disjunction.** -/
theorem either (h₁ : Decides I first P) (h₂ : Decides I second Q) :
    Decides I (Query.either first second) (P ∨ Q) := by
  intro m r m' hm hr
  rcases answers_either.1 hr with ⟨m₁, ha, hb⟩ | ⟨ha, rfl⟩
  · obtain ⟨hm₁, hP⟩ := h₁ m false m₁ hm ha
    obtain ⟨hm', hQ⟩ := h₂ m₁ r m' hm₁ hb
    refine ⟨hm', fun h => .inr (hQ.1 h), fun h => ?_⟩
    rcases h with h | h
    · exact absurd (hP.2 h) Bool.false_ne_true
    · exact hQ.2 h
  · obtain ⟨hm', hP⟩ := h₁ m true m' hm ha
    exact ⟨hm', fun _ => .inl (hP.1 rfl), fun _ => rfl⟩

/-- Asking a question of all elements decides whether all of them are as it says. -/
theorem all {ask : α → Query Bool} {P : α → Prop} :
    ∀ {as : List α}, (∀ a ∈ as, Decides I (ask a) (P a)) →
      Decides I (Query.all ask as) (∀ a ∈ as, P a)
  | [], _ => pure_true (by simp)
  | a :: as, h =>
    (both (h a (by simp)) fun _ => all fun b hb => h b (List.mem_cons_of_mem _ hb)).congr (by simp)

/-- Asking a question of some elements decides whether one of them is as it says. -/
theorem any {ask : α → Query Bool} {P : α → Prop} :
    ∀ {as : List α}, (∀ a ∈ as, Decides I (ask a) (P a)) →
      Decides I (Query.any ask as) (∃ a ∈ as, P a)
  | [], _ => pure_false (by simp)
  | a :: as, h =>
    (either (h a (by simp)) (any fun b hb => h b (List.mem_cons_of_mem _ hb))).congr (by simp)

end Decides

end Query
end Generics
