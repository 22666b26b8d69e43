/-
# Two runs side by side

Let a question be asked twice, in memories that agree up to a pairing of numbers (`Memory.Pairs`), and let
what is asked be alike. If there is an answer both times, the answers are alike, and the memories agree
afterwards (`Query.Parallel`). What is captured and built on the way gets the numbers after the counters,
and these are paired in order, so that the runs keep in step. It does not matter how deep the runs may
nest, since a run that gets too deep does not answer.

Capturing comes in two forms. In step with the counters it is one more parallel question
(`Setting.capture_parallel`). But two captures may also lie apart, with other captures after them; then only
the numbers that they take are paired, and their bounds are still alike (`Setting.capture_alike`).
-/

import Generics.Proofs.Origins
import Generics.Proofs.Registries

namespace Generics

namespace Query

/-- Asked in related memories, the questions have related answers and leave related memories, if both
answer. -/
def Parallel {α β : Type} (P : Memory → Memory → Prop) (R : α → β → Prop) (q : Query α) (q' : Query β) :
    Prop :=
  ∀ m m' a m₁ b m₁', P m m' → q.Answers m a m₁ → q'.Answers m' b m₁' → R a b ∧ P m₁ m₁'

namespace Parallel

variable {α β γ δ : Type} {P : Memory → Memory → Prop} {R R' : α → β → Prop} {S : γ → δ → Prop}
  {q : Query α} {q' : Query β}

/-- Related values are parallel answers: no memory changes. -/
theorem pure {a : α} {b : β} (h : R a b) : Parallel P R (pure a) (pure b) := by
  intro m m' a' m₁ b' m₁' hP ha hb
  obtain ⟨rfl, rfl⟩ := answers_pure.1 ha
  obtain ⟨rfl, rfl⟩ := answers_pure.1 hb
  exact ⟨h, hP⟩

/-- A question that fails on the left is parallel to any other one, as nothing is asked of it. -/
theorem throw_left {f : Failure} : Parallel P R (throw f) q' :=
  fun _ _ _ _ _ _ _ ha _ => absurd ha answers_throw

/-- A question that fails on the right is parallel to any other one. -/
theorem throw_right {f : Failure} : Parallel P R q (throw f) :=
  fun _ _ _ _ _ _ _ _ hb => absurd hb answers_throw

/-- Parallel questions that go on in parallel from related answers are parallel. -/
theorem bind {p : α → Query γ} {p' : β → Query δ} (hq : Parallel P R q q')
    (hp : ∀ a b, R a b → Parallel P S (p a) (p' b)) : Parallel P S (q >>= p) (q' >>= p') := by
  intro m m' c m₁ d m₁' hP hc hd
  obtain ⟨a, m₂, ha, hc⟩ := answers_bind.1 hc
  obtain ⟨b, m₂', hb, hd⟩ := answers_bind.1 hd
  obtain ⟨hR, hP⟩ := hq m m' a m₂ b m₂' hP ha hb
  exact hp a b hR m₂ m₂' c m₁ d m₁' hP hc hd

/-- A weaker relation between the answers may be asked for. -/
theorem imp (hq : Parallel P R q q') (h : ∀ a b, R a b → R' a b) : Parallel P R' q q' := by
  intro m m' a m₁ b m₁' hP ha hb
  obtain ⟨hR, hP⟩ := hq m m' a m₁ b m₁' hP ha hb
  exact ⟨h a b hR, hP⟩

/-- Branching on conditions that agree keeps questions parallel. -/
theorem ite {c c' : Prop} [Decidable c] [Decidable c'] {p : Query α} {p' : Query β} (hc : c ↔ c')
    (hq : c → Parallel P R q q') (hp : ¬ c → Parallel P R p p') :
    Parallel P R (if c then q else p) (if c' then q' else p') := by
  by_cases h : c
  · rw [if_pos h, if_pos (hc.1 h)]
    exact hq h
  · rw [if_neg h, if_neg (mt hc.2 h)]
    exact hp h

/-- Reading the memory gives related memories. -/
theorem get : Parallel P P get get := by
  intro m m' a m₁ b m₁' hP ha hb
  obtain ⟨rfl, rfl⟩ := answers_get.1 ha
  obtain ⟨rfl, rfl⟩ := answers_get.1 hb
  exact ⟨hP, hP⟩

section Connectives

variable {first second first' second' : Query Bool}

/-- Conjunctions of parallel questions are parallel: the second half is asked in both runs or in none.
-/
theorem both (h₁ : Parallel P (· = ·) first first') (h₂ : Parallel P (· = ·) second second') :
    Parallel P (· = ·) (both first second) (Query.both first' second') := by
  refine h₁.bind ?_
  rintro r _ rfl
  exact ite Iff.rfl (fun _ => h₂) fun _ => pure rfl

/-- Disjunctions of parallel questions are parallel. -/
theorem either (h₁ : Parallel P (· = ·) first first') (h₂ : Parallel P (· = ·) second second') :
    Parallel P (· = ·) (either first second) (Query.either first' second') := by
  refine h₁.bind ?_
  rintro r _ rfl
  exact ite Iff.rfl (fun _ => pure rfl) fun _ => h₂

variable {ask : α → Query Bool} {ask' : β → Query Bool} {as : List α} {bs : List β}

/-- Asking of all of two related lists is parallel if asking of related elements is. -/
theorem all (h : ∀ a b, R a b → Parallel P (· = ·) (ask a) (ask' b)) (has : List.Forall₂ R as bs) :
    Parallel P (· = ·) (all ask as) (Query.all ask' bs) := by
  induction has with
  | nil => exact pure rfl
  | cons hab _ ih => exact (h _ _ hab).both ih

/-- Asking of some of two related lists is parallel if asking of related elements is. -/
theorem any (h : ∀ a b, R a b → Parallel P (· = ·) (ask a) (ask' b)) (has : List.Forall₂ R as bs) :
    Parallel P (· = ·) (any ask as) (Query.any ask' bs) := by
  induction has with
  | nil => exact pure rfl
  | cons hab _ ih => exact (h _ _ hab).either ih

end Connectives

end Parallel

end Query

/-! ## Memories that agree -/

/-- The bounds of captured variables are alike. -/
structure Captured.Like (ρ : Pairing) (c c' : Captured) : Prop where
  upper : c.upper.Like ρ c'.upper
  lower : c.lower.Like ρ c'.lower

/-- Numbers to come are paired in order, and captured variables that stand for each other have alike
bounds. -/
structure Memory.Pairs (s : Setting) (ρ : Pairing) (m m' : Memory) : Prop where
  left : m.Faithful s
  right : m'.Faithful s
  number : ∀ x, ρ.var (.captured (m.lastCaptured + 1 + x)) (.captured (m'.lastCaptured + 1 + x))
  built : ∀ x, ρ.built (m.built + 1 + x) (m'.built + 1 + x)
  bounds : ∀ i j, ρ.var (.captured i) (.captured j) →
    Option.Rel (Captured.Like ρ) (m.captured? i) (m'.captured? j)

/-- The number that comes `y` after the next one, once `x` more are used up. -/
theorem number_after (k x y : Nat) : k + 1 + (x + y) = k + x + 1 + y := by omega

namespace Memory.Pairs

variable {s : Setting} {ρ : Pairing} {m m' m₁ m₁' : Memory}

/-- Captured variables that stand for each other have alike upper bounds. -/
theorem upper (h : m.Pairs s ρ m') {i j : Nat} (hij : ρ.var (.captured i) (.captured j)) :
    (m.upper i).Like ρ (m'.upper j) :=
  rel_getD (rel_optionMap (h.bounds i j hij) fun _ _ hc => hc.upper) Ty.like_object

/-- Captured variables that stand for each other have alike lower bounds. -/
theorem lower (h : m.Pairs s ρ m') {i j : Nat} (hij : ρ.var (.captured i) (.captured j)) :
    (m.lower i).Like ρ (m'.lower j) :=
  rel_getD (rel_optionMap (h.bounds i j hij) fun _ _ hc => hc.lower) Ty.like_null

/-- The identities of the next types built are paired. -/
theorem site (h : m.Pairs s ρ m') : ρ.site (Query.nextSite m) (Query.nextSite m') :=
  ⟨⟨_, rfl, h.built 0⟩, rfl⟩

/-- Learning about declarations keeps memories in agreement. -/
theorem learns (h : m.Pairs s ρ m') (hf : m₁.Faithful s) (hf' : m₁'.Faithful s) (hl : m.Learns m₁)
    (hl' : m'.Learns m₁') : m₁.Pairs s ρ m₁' := by
  refine ⟨hf, hf', ?_, ?_, ?_⟩
  · rw [hl.last, hl'.last]
    exact h.number
  · rw [hl.built, hl'.built]
    exact h.built
  · intro i j hij
    rw [Memory.captured?, Memory.captured?, hl.captured, hl'.captured]
    exact h.bounds i j hij

/-- Building as many types keeps memories in agreement. -/
theorem builds (h : m.Pairs s ρ m') (x : Nat) :
    Memory.Pairs s ρ { m with built := m.built + x } { m' with built := m'.built + x } := by
  refine ⟨h.left, h.right, h.number, fun y => ?_, h.bounds⟩
  have hnext := h.built (x + y)
  rwa [number_after, number_after] at hnext

end Memory.Pairs

/-- What a catalog declares is like itself. -/
structure Setting.Covers (s : Setting) (ρ : Pairing) : Prop where
  upper : ∀ v, ρ.declared v → (s.catalog.upper v).Like ρ (s.catalog.upper v)
  params : ∀ decl l, s.lineageOf decl = some l → ∀ v ∈ l.params, ρ.declared v
  parents : ∀ decl l, s.lineageOf decl = some l → ∀ n ∈ l.parents, n.Like ρ n

namespace Query

variable {α : Type} {s : Setting} {ρ : Pairing}

/-- **A steady question has the same answer both times.** -/
theorem Steady.parallel {q : Query α} (h : Steady s q) :
    Parallel (Memory.Pairs s ρ) (fun a b => a = b ∧ Settles s q (.ok a)) q q := by
  intro m m' a m₁ b m₁' hP ha hb
  obtain ⟨hsettles, hf, hl⟩ := h.settles hP.left ha
  obtain ⟨hsettles', hf', hl'⟩ := h.settles hP.right hb
  exact ⟨⟨Except.ok.inj (hsettles.unique hsettles'), hsettles⟩, hP.learns hf hf' hl hl'⟩

end Query

/-! ## Replacing -/

/-- The pairing in which types built are not told apart. -/
def Pairing.blind (ρ : Pairing) : Pairing := { ρ with built := fun _ _ => True }

/-- Forgetting which built types are which only relates more. -/
theorem Pairing.le_blind (ρ : Pairing) : ρ.Le ρ.blind :=
  ⟨fun _ => id, fun _ => id, fun _ _ => id, fun _ _ _ => trivial⟩

/-- Substitutions that are alike stay so where more is paired. -/
theorem Subst.Like.mono {ρ ρ' : Pairing} (h : ρ.Le ρ') {σ σ' : Subst} (hσ : σ.Like ρ σ') :
    σ.Like ρ' σ' :=
  List.Forall₂.imp (fun _ _ he => ⟨he.1, he.2.mono h⟩) hσ

/-- The memory after the type was built, if one was. -/
def Memory.building {α : Type} (m : Memory) (o : Option α) : Memory :=
  { m with built := m.built + if o.isSome then 1 else 0 }

namespace Query

section Replacing

variable {s : Setting} {ρ : Pairing} {σ σ' : Subst} {m m' m₁ m₁' : Memory}

/-- What replacing variables answers and leaves behind, read off at once: a type was built or nothing
changed. -/
theorem replace?_inv {t : Ty} {o : Option Ty} (h : (replace? σ t).Answers m o m₁) :
    o = (if σ.entries.isEmpty then none else t.subst? σ (nextSite m)) ∧ m₁ = m.building o := by
  unfold replace? at h
  split at h
  · next hempty =>
    obtain ⟨rfl, rfl⟩ := answers_pure.1 h
    exact ⟨(if_pos hempty).symm, rfl⟩
  · next hempty =>
    obtain ⟨m₀, m₂, hget, hrest⟩ := answers_bind.1 h
    obtain ⟨rfl, rfl⟩ := answers_get.1 hget
    rw [if_neg hempty]
    cases hs : t.subst? σ (nextSite m₂) with
    | none =>
      rw [hs] at hrest
      obtain ⟨rfl, rfl⟩ := answers_pure.1 hrest
      exact ⟨rfl, rfl⟩
    | some t' =>
      rw [hs] at hrest
      obtain ⟨_, m₃, hnote, hpure⟩ := answers_bind.1 hrest
      obtain rfl := answers_modify.1 hnote
      obtain ⟨rfl, rfl⟩ := answers_pure.1 hpure
      exact ⟨rfl, rfl⟩

/-- The same for an applied declaration, which is kept where nothing is replaced. -/
theorem replaceIn_inv {n n' : Nominal} (h : (replaceIn σ n).Answers m n' m₁) :
    n' = (n.subst? σ (nextSite m)).getD n ∧ m₁ = m.building (n.subst? σ (nextSite m)) := by
  obtain ⟨m₀, m₂, hget, hrest⟩ := answers_bind.1 h
  obtain ⟨rfl, rfl⟩ := answers_get.1 hget
  cases hs : n.subst? σ (nextSite m₂) with
  | none =>
    rw [hs] at hrest
    obtain ⟨rfl, rfl⟩ := answers_pure.1 hrest
    exact ⟨rfl, rfl⟩
  | some n'' =>
    rw [hs] at hrest
    obtain ⟨_, m₃, hnote, hpure⟩ := answers_bind.1 hrest
    obtain rfl := answers_modify.1 hnote
    obtain ⟨rfl, rfl⟩ := answers_pure.1 hpure
    exact ⟨rfl, rfl⟩

/-- **Replacing in alike types gives alike types**, if the numbers that are used up are paired. -/
theorem replace_alike (hρ : ρ.Sharp) (hσ : σ.Like ρ σ') {t t' u u' : Ty} (ht : t.Like ρ t')
    (h : (replace σ t).Answers m u m₁) (h' : (replace σ' t').Answers m' u' m₁')
    (hbuilt : m.built < m₁.built → ρ.built (m.built + 1) (m'.built + 1)) :
    u.Like ρ u' ∧ ∃ x, m₁ = { m with built := m.built + x } ∧
      m₁' = { m' with built := m'.built + x } := by
  obtain ⟨o, m₂, hask, hu⟩ := answers_bind.1 h
  obtain ⟨rfl, rfl⟩ := answers_pure.1 hu
  obtain ⟨o', m₂', hask', hu'⟩ := answers_bind.1 h'
  obtain ⟨rfl, rfl⟩ := answers_pure.1 hu'
  obtain ⟨ho, rfl⟩ := replace?_inv hask
  obtain ⟨ho', rfl⟩ := replace?_inv hask'
  rw [← hσ.isEmpty_eq] at ho'
  have hrel : ∀ {τ : Pairing}, ρ.Le τ → τ.Sharp → τ.site (nextSite m) (nextSite m') →
      Option.Rel (Ty.Like τ) o o' := by
    intro τ hle hτ hsite
    rw [ho, ho']
    split
    · exact .none
    · exact Ty.Like.subst? hτ (hσ.mono hle) hsite (ht.mono hle)
  have hblind := hrel ρ.le_blind hρ ⟨⟨_, rfl, trivial⟩, rfl⟩
  rcases rel_cases hblind with ⟨hnone, hnone'⟩ | ⟨v, v', hsome, hsome', -⟩
  · rw [hnone, hnone']
    exact ⟨ht, 0, rfl, rfl⟩
  · have hpair : ρ.built (m.built + 1) (m'.built + 1) := hbuilt (by simp [Memory.building, hsome])
    have hlike := hrel ⟨fun _ => id, fun _ => id, fun _ _ => id, fun _ _ => id⟩ hρ ⟨⟨_, rfl, hpair⟩, rfl⟩
    refine ⟨rel_getD hlike ht, 1, ?_, ?_⟩ <;> simp [Memory.building, hsome, hsome']

/-- Replacing variables by alike substitutions in alike types gives alike types. -/
theorem replace_parallel (hρ : ρ.Sharp) (hσ : σ.Like ρ σ') {t t' : Ty} (ht : t.Like ρ t') :
    Parallel (Memory.Pairs s ρ) (Ty.Like ρ) (replace σ t) (replace σ' t') := by
  intro m m' u m₁ u' m₁' hP hu hu'
  obtain ⟨hlike, x, rfl, rfl⟩ := replace_alike hρ hσ ht hu hu' fun _ => hP.built 0
  exact ⟨hlike, hP.builds x⟩

/-- Replacing variables in alike applied declarations gives alike ones. -/
theorem replaceIn_parallel (hρ : ρ.Sharp) (hσ : σ.Like ρ σ') {n n' : Nominal} (hn : n.Like ρ n') :
    Parallel (Memory.Pairs s ρ) (Nominal.Like ρ) (replaceIn σ n) (replaceIn σ' n') := by
  intro m m' r m₁ r' m₁' hP hr hr'
  obtain ⟨rfl, rfl⟩ := replaceIn_inv hr
  obtain ⟨rfl, rfl⟩ := replaceIn_inv hr'
  have hrel : Option.Rel (Nominal.Like ρ) (n.subst? σ (nextSite m)) (n'.subst? σ' (nextSite m')) :=
    rel_optionMap (Arg.LikeAll.substAll? hρ hσ 0 hP.site (Arg.likeAll_iff.2 hn.args))
      fun as as' has => ⟨hP.site, hn.decl, Arg.likeAll_iff.1 has⟩
  refine ⟨rel_getD hrel hn, ?_⟩
  rcases rel_cases hrel with ⟨hnone, hnone'⟩ | ⟨v, v', hsome, hsome', -⟩
  · rw [hnone, hnone']
    exact hP.builds 0
  · rw [hsome, hsome']
    exact hP.builds 1

end Replacing

end Query

namespace Setting

open Query

variable {s : Setting} {ρ : Pairing}

/-! ## Ways up -/

section Lineages

/-- Alike applied declarations are raw together. -/
theorem isRaw_parallel {n n' : Nominal} (hn : n.Like ρ n') :
    Parallel (Memory.Pairs s ρ) (· = ·) (s.isRaw n) (s.isRaw n') := by
  refine .ite ?_ (fun _ => ?_) fun _ => .pure rfl
  · rw [List.isEmpty_iff_length_eq_zero, List.isEmpty_iff_length_eq_zero, hn.args.length_eq]
  · rw [hn.decl]
    refine (params_steady s n.decl).parallel.bind ?_
    rintro ps _ ⟨rfl, -⟩
    exact .pure rfl

/-- The types that alike arguments put in place of parameters are alike. -/
theorem argTypes_parallel (n n' : Nominal) {as as' : List Arg} (has : List.Forall₂ (Arg.Like ρ) as as') :
    Parallel (Memory.Pairs s ρ) (List.Forall₂ (Ty.Like ρ)) (argTypes n as) (argTypes n' as') := by
  induction has with
  | nil => exact .pure .nil
  | @cons a a' as as' ha _ ih =>
    cases a with
    | wild u l => exact .throw_left
    | type t =>
      obtain ⟨t', rfl, ht⟩ := Arg.like_type_iff.1 ha
      exact ih.bind fun ts ts' hts => .pure (.cons ht hts)

/-- Alike applied declarations assign alike types to the parameters. -/
theorem assignment_parallel {n n' : Nominal} (hn : n.Like ρ n') :
    Parallel (Memory.Pairs s ρ) (Subst.Like ρ) (s.assignment n) (s.assignment n') := by
  unfold assignment
  rw [hn.decl]
  refine (params_steady s n.decl).parallel.bind ?_
  rintro ps _ ⟨rfl, -⟩
  refine .ite (by rw [hn.args.length_eq]) (fun _ => .throw_left) fun _ => ?_
  exact (argTypes_parallel n n' hn.args).bind fun ts ts' hts => .pure (Subst.like_zip ps hts)

variable (hρ : ρ.Sharp) (hs : s.Covers ρ)
include hρ hs

/-- **Climbing from alike applied declarations** takes the same steps and arrives at alike parents. -/
theorem climb_parallel (ancestor : String) (steps : Nat) {n n' : Nominal} (hn : n.Like ρ n') :
    Parallel (Memory.Pairs s ρ) (Option.Rel (Nominal.Like ρ)) (s.climb ancestor steps n)
      (s.climb ancestor steps n') := by
  induction steps generalizing n n' with
  | zero =>
    rw [climb, climb, hn.decl]
    exact .ite Iff.rfl (fun _ => .pure (.some hn)) fun _ => .throw_left
  | succ steps ih =>
    rw [climb, climb, hn.decl]
    refine .ite Iff.rfl (fun _ => .pure (.some hn)) fun _ => ?_
    refine (leadsTo?_steady s n.decl ancestor).parallel.bind ?_
    rintro o _ ⟨rfl, hsettles⟩
    cases o with
    | none => exact .pure .none
    | some parent =>
      obtain ⟨⟨l, hl, hmem⟩, -⟩ := leadsTo?_sound hsettles
      have hparent := hs.parents _ l hl parent hmem
      have hempty : n.args.isEmpty ↔ n'.args.isEmpty := by
        rw [List.isEmpty_iff_length_eq_zero, List.isEmpty_iff_length_eq_zero, hn.args.length_eq]
      refine .ite hempty (fun _ => (isRaw_parallel hn).bind ?_) fun _ => ?_
      · rintro raw _ rfl
        exact .ite Iff.rfl (fun _ => ih ⟨⟨rfl, rfl⟩, rfl, .nil⟩) fun _ => ih hparent
      · exact (assignment_parallel hn).bind fun σ σ' hσ =>
          (replaceIn_parallel hρ hσ hparent).bind fun p p' hp => ih hp

/-- **Alike applied declarations are seen alike** as an ancestor. -/
theorem seenAs_parallel {n n' : Nominal} (hn : n.Like ρ n') (ancestor : String) :
    Parallel (Memory.Pairs s ρ) (Option.Rel (Nominal.Like ρ)) (s.seenAs n ancestor)
      (s.seenAs n' ancestor) := by
  refine .ite Iff.rfl (fun _ => ?_) fun _ => climb_parallel hρ hs ancestor _ hn
  rw [hn.decl]
  exact (lineage_steady s n.decl).parallel.bind fun _ _ _ => .pure (.some ⟨⟨rfl, rfl⟩, rfl, .nil⟩)

end Lineages

/-! ## Capturing -/

section Capturing

variable (hρ : ρ.Sharp) (hs : s.Covers ρ)
include hρ hs

/-- The bounds of new variables are alike, if the numbers that are used up are paired. -/
theorem captureBounds_alike {σ σ' : Subst} (hσ : σ.Like ρ σ') {ps : List TypeVar}
    (hps : ∀ p ∈ ps, ρ.declared p) {as as' : List Arg} (has : List.Forall₂ (Arg.Like ρ) as as')
    {last last' : Nat} (hnumber : ∀ j < as.countP Arg.isWild, ρ.number (last + 1 + j) (last' + 1 + j))
    {m m' m₁ m₁' : Memory} {cs cs' : List Captured}
    (h : (s.captureBounds σ last ps as).Answers m cs m₁)
    (h' : (s.captureBounds σ' last' ps as').Answers m' cs' m₁')
    (hbuilt : ∀ x, m.built + x < m₁.built → ρ.built (m.built + 1 + x) (m'.built + 1 + x)) :
    List.Forall₂ (Captured.Like ρ) cs cs' ∧ ∃ x, m₁ = { m with built := m.built + x } ∧
      m₁' = { m' with built := m'.built + x } := by
  have hnone : ∀ {m m' m₁ m₁' : Memory} {cs cs' : List Captured},
      (pure [] : Query (List Captured)).Answers m cs m₁ → (pure [] : Query _).Answers m' cs' m₁' →
        List.Forall₂ (Captured.Like ρ) cs cs' ∧ ∃ x, m₁ = { m with built := m.built + x } ∧
          m₁' = { m' with built := m'.built + x } := by
    intro m m' m₁ m₁' cs cs' h h'
    obtain ⟨rfl, rfl⟩ := answers_pure.1 h
    obtain ⟨rfl, rfl⟩ := answers_pure.1 h'
    exact ⟨.nil, 0, rfl, rfl⟩
  induction has generalizing last last' ps m m' cs cs' with
  | nil => cases ps <;> exact hnone h h'
  | @cons a a' as as' ha _ ih =>
    cases ps with
    | nil => exact hnone h h'
    | cons p ps =>
      obtain ⟨hp, hps⟩ := List.forall_mem_cons.1 hps
      cases a with
      | type t =>
        obtain ⟨t', rfl, -⟩ := Arg.like_type_iff.1 ha
        rw [captureBounds] at h h'
        rw [List.countP_cons_of_neg (by simp [Arg.isWild])] at hnumber
        exact ih hps hnumber h h' hbuilt
      | wild u l =>
        obtain ⟨u', l', rfl, hu, hl⟩ := Arg.like_wild_iff.1 ha
        rw [captureBounds] at h h'
        rw [List.countP_cons_of_pos (by simp [Arg.isWild])] at hnumber
        obtain ⟨b, m₂, hb, h⟩ := answers_bind.1 h
        obtain ⟨cs₁, m₃, hcs, h⟩ := answers_bind.1 h
        obtain ⟨rfl, rfl⟩ := answers_pure.1 h
        obtain ⟨b', m₂', hb', h'⟩ := answers_bind.1 h'
        obtain ⟨cs₁', m₃', hcs', h'⟩ := answers_bind.1 h'
        obtain ⟨rfl, rfl⟩ := answers_pure.1 h'
        -- what the first bound uses up is at most what all of them do
        have hkeeps : Preserves (fun m => m₂.built ≤ m.built) (s.captureBounds σ (last + 1) ps as) :=
          (captureBounds_ensures (F := fun _ => True) (fun _ => Nat.le_succ_of_le) σ _ ps as).leaves
        have hle := hkeeps.answers (Nat.le_refl _) hcs
        obtain ⟨hbound, x, rfl, rfl⟩ := replace_alike hρ hσ (hs.upper p hp) hb hb' fun hlt =>
          hbuilt 0 (by omega)
        have hnumbers : ∀ j < as.countP Arg.isWild,
            ρ.number (last + 1 + 1 + j) (last' + 1 + 1 + j) := by
          intro j hj
          have hnext := hnumber (j + 1) (by omega)
          rwa [show last + 1 + (j + 1) = last + 1 + 1 + j by omega,
            show last' + 1 + (j + 1) = last' + 1 + 1 + j by omega] at hnext
        have hrest := ih hps hnumbers hcs hcs' fun y hy => ?_
        · obtain ⟨hlike, y, rfl, rfl⟩ := hrest
          refine ⟨.cons ⟨hu.meetBounds ?_ hbound, hl⟩ hlike, x + y, ?_, ?_⟩
          · exact ⟨⟨_, rfl, hnumber 0 (by omega)⟩, rfl⟩
          · simp only [Nat.add_assoc]
          · simp only [Nat.add_assoc]
        · dsimp only at hy ⊢
          have hnext := hbuilt (x + y) (by omega)
          rwa [number_after, number_after] at hnext

omit hρ hs in
/-- The arguments that are types, of alike lists of arguments, are alike. -/
theorem like_types {as as' : List Arg} (h : List.Forall₂ (Arg.Like ρ) as as') :
    List.Forall₂ (Ty.Like ρ) (as.filterMap Arg.type?) (as'.filterMap Arg.type?) := by
  induction h with
  | nil => exact .nil
  | @cons a a' as as' ha _ ih =>
    cases a with
    | type t =>
      obtain ⟨t', rfl, ht⟩ := Arg.like_type_iff.1 ha
      exact .cons ht ih
    | wild u l =>
      obtain ⟨u', l', rfl, -⟩ := Arg.like_wild_iff.1 ha
      exact ih

omit hρ hs in
/-- Alike lists of arguments have equally many wildcards, and so capture equally many variables. -/
theorem countP_isWild_of_like {as as' : List Arg} (h : List.Forall₂ (Arg.Like ρ) as as') :
    as'.countP Arg.isWild = as.countP Arg.isWild := by
  induction h with
  | nil => rfl
  | cons ha _ ih => rw [List.countP_cons, List.countP_cons, ih, ha.isWild_eq]

omit hρ hs in
/-- What capturing wildcards does step by step. -/
theorem capture_inv {n c : Nominal} {m m₁ : Memory} (hm : m.Faithful s) (hwild : n.hasWild = true)
    (h : (s.capture n).Answers m c m₁) : ∃ l m₂ cs m₃, s.lineageOf n.decl = some l ∧ m.Learns m₂ ∧
      (s.captureBounds (Subst.zip l.params ((captureArgs m.lastCaptured n.args).filterMap Arg.type?))
        m.lastCaptured l.params n.args).Answers
          { m₂ with lastCaptured := m.lastCaptured + n.args.countP Arg.isWild } cs m₃ ∧
        m₁ = { m₃ with captured := cs.reverse ++ m₃.captured } := by
  unfold capture at h
  rw [if_pos hwild] at h
  obtain ⟨ps, m₂, hps, h⟩ := answers_bind.1 h
  obtain ⟨hsettles, -, hlearns⟩ := (params_steady s n.decl).settles hm hps
  obtain ⟨l, hl, rfl⟩ := settles_params hsettles
  split at h
  · exact absurd h answers_throw
  · obtain ⟨m₀, m₃, hget, hrest⟩ := answers_bind.1 h
    obtain ⟨rfl, rfl⟩ := answers_get.1 hget
    obtain ⟨_, m₄, hmod, hrest⟩ := answers_bind.1 hrest
    obtain rfl := answers_modify.1 hmod
    obtain ⟨cs, m₅, hcs, hrest⟩ := answers_bind.1 hrest
    obtain ⟨_, m₆, hmod', hrest⟩ := answers_bind.1 hrest
    obtain rfl := answers_modify.1 hmod'
    obtain ⟨-, rfl⟩ := answers_pure.1 hrest
    rw [hlearns.last] at hcs
    exact ⟨l, m₃, cs, m₅, hl, hlearns, hcs, rfl⟩

/-- **Alike applied declarations are captured alike**, wherever the captures lie, if the numbers that
are used up are paired. -/
theorem capture_alike {n n' c c' : Nominal} (hn : n.Like ρ n') {m m' m₁ m₁' : Memory}
    (hm : m.Faithful s) (hm' : m'.Faithful s) (h : (s.capture n).Answers m c m₁)
    (h' : (s.capture n').Answers m' c' m₁')
    (hnumber : ∀ j < n.args.countP Arg.isWild,
      ρ.var (.captured (m.lastCaptured + 1 + j)) (.captured (m'.lastCaptured + 1 + j)))
    (hbuilt : ∀ x, m.built + x < m₁.built → ρ.built (m.built + 1 + x) (m'.built + 1 + x)) :
    c.Like ρ c' ∧ ∃ cs cs' x, s.Captures n m m₁ cs ∧ s.Captures n' m' m₁' cs' ∧
      List.Forall₂ (Captured.Like ρ) cs cs' ∧ m₁.built = m.built + x ∧ m₁'.built = m'.built + x := by
  obtain ⟨hc, ⟨cs, hcs⟩, -⟩ := capture_fills hm h
  obtain ⟨hc', ⟨cs', hcs'⟩, -⟩ := capture_fills hm' h'
  have hargs := like_captureArgs hn.args hnumber
  refine ⟨?_, cs, cs', ?_⟩
  · rw [hc, hc']
    exact ⟨hn.site, hn.decl, hargs⟩
  have hcount := countP_isWild_of_like hn.args
  have hhas : ∀ k : Nominal, k.hasWild = true ↔ 0 < k.args.countP Arg.isWild := fun k => by
    rw [Nominal.hasWild, List.any_eq_true, List.countP_pos_iff]
  cases hwild : n.hasWild with
  | false =>
    have hwild' : n'.hasWild = false := by
      rw [← Bool.not_eq_true, hhas, hcount, ← hhas, hwild]
      exact Bool.false_ne_true
    unfold capture at h h'
    rw [if_neg (by simp [hwild])] at h
    rw [if_neg (by simp [hwild'])] at h'
    obtain ⟨-, rfl⟩ := answers_pure.1 h
    obtain ⟨-, rfl⟩ := answers_pure.1 h'
    have hnil : ∀ {cs : List Captured} {m : Memory}, m.captured = cs.reverse ++ m.captured → cs = [] :=
      fun heq => List.reverse_eq_nil_iff.1 (List.self_eq_append_left.1 heq)
    obtain rfl := hnil hcs.captured
    obtain rfl := hnil hcs'.captured
    exact ⟨0, hcs, hcs', .nil, rfl, rfl⟩
  | true =>
    have hwild' : n'.hasWild = true := by rw [hhas, hcount, ← hhas, hwild]
    obtain ⟨l, m₂, ds, m₃, hl, hlearns, hds, rfl⟩ := capture_inv hm hwild h
    obtain ⟨l', m₂', ds', m₃', hl', hlearns', hds', rfl⟩ := capture_inv hm' hwild' h'
    obtain rfl : l' = l := Option.some.inj (hl'.symm.trans (hn.decl ▸ hl))
    have hpaired : ∀ j < n.args.countP Arg.isWild,
        ρ.number (m.lastCaptured + 1 + j) (m'.lastCaptured + 1 + j) := fun j hj => by
      obtain ⟨_, heq, -, hpair⟩ := hnumber j hj
      cases heq
      exact hpair
    have hbounds := captureBounds_alike hρ hs (Subst.like_zip l'.params (like_types hargs))
      (hs.params _ l' hl) hn.args hpaired hds hds' fun x hx => ?_
    · obtain ⟨hlike, x, rfl, rfl⟩ := hbounds
      have heq : ∀ {cs ds : List Captured} {m m₁ : Memory}, m.Learns m₁ →
          ds.reverse ++ m₁.captured = cs.reverse ++ m.captured → cs = ds := by
        intro cs ds m m₁ hl heq
        rw [hl.captured] at heq
        exact (List.reverse_injective (List.append_cancel_right heq)).symm
      obtain rfl := heq hlearns hcs.captured
      obtain rfl := heq hlearns' hcs'.captured
      refine ⟨x, hcs, hcs', hlike, ?_, ?_⟩
      · rw [← hlearns.built]
      · rw [← hlearns'.built]
    · dsimp only at hx ⊢
      rw [hlearns.built] at hx ⊢
      rw [hlearns'.built]
      exact hbuilt x hx

omit hs in
/-- **Capturing keeps memories in agreement**, if as many types are built both times. -/
theorem Captures.pairs {n n' : Nominal} (hn : n.Like ρ n') {m m' m₁ m₁' : Memory}
    {cs cs' : List Captured} (hP : m.Pairs s ρ m') (hcs : s.Captures n m m₁ cs)
    (hcs' : s.Captures n' m' m₁' cs') (hlike : List.Forall₂ (Captured.Like ρ) cs cs') {x : Nat}
    (hbuilt : m₁.built = m.built + x) (hbuilt' : m₁'.built = m'.built + x) : m₁.Pairs s ρ m₁' := by
  have hcount := countP_isWild_of_like hn.args
  refine ⟨hcs.faithful, hcs'.faithful, fun y => ?_, fun y => ?_, fun i j hij => ?_⟩
  · have hnext := hP.number (n.args.countP Arg.isWild + y)
    rw [hcs.last, hcs'.last, hcount]
    rwa [number_after, number_after] at hnext
  · have hnext := hP.built (x + y)
    rw [hbuilt, hbuilt']
    rwa [number_after, number_after] at hnext
  · -- a number after the counter stands for the one that is as far after the other counter
    obtain ⟨_, heq, -, hpair⟩ := id hij
    cases heq
    have hahead : ∀ y, i = m.lastCaptured + 1 + y ↔ j = m'.lastCaptured + 1 + y := fun y => by
      obtain ⟨_, heq, -, hnext⟩ := hP.number y
      cases heq
      exact Relator.rel_eq hρ hpair hnext
    rw [hcs.captured?_eq, hcs'.captured?_eq]
    refine rel_or ?_ (hP.bounds i j hij)
    by_cases hi : m.lastCaptured < i
    · have hj := (hahead (i - m.lastCaptured - 1)).1 (by omega)
      rw [if_pos hi, if_pos (by omega), hj,
        show m'.lastCaptured + 1 + (i - m.lastCaptured - 1) - m'.lastCaptured - 1 =
          i - m.lastCaptured - 1 by omega]
      exact rel_getElem? hlike _
    · have hj : ¬ m'.lastCaptured < j := fun hj => by
        have := (hahead (j - m'.lastCaptured - 1)).2 (by omega)
        omega
      rw [if_neg hi, if_neg hj]
      exact .none

/-- **Capturing alike applied declarations** gives alike ones: the new variables are paired as they are
made. -/
theorem capture_parallel {n n' : Nominal} (hn : n.Like ρ n') :
    Parallel (Memory.Pairs s ρ) (Nominal.Like ρ) (s.capture n) (s.capture n') := by
  intro m m' c m₁ c' m₁' hP h h'
  obtain ⟨hc, cs, cs', x, hcs, hcs', hlike, hx, hx'⟩ := capture_alike hρ hs hn hP.left hP.right h h'
    (fun j _ => hP.number j) fun x _ => hP.built x
  exact ⟨hc, hcs.pairs hρ hn hP hcs' hlike hx hx'⟩

/-- Alike applied declarations are seen as alike parents. -/
theorem supertypeAs_parallel {n n' : Nominal} (hn : n.Like ρ n') (ancestor : String) :
    Parallel (Memory.Pairs s ρ) (Option.Rel (Nominal.Like ρ)) (s.supertypeAs n ancestor)
      (s.supertypeAs n' ancestor) :=
  (capture_parallel hρ hs hn).bind fun _ _ hc => seenAs_parallel hρ hs hc ancestor

end Capturing

end Setting

end Generics
