/-
# What passes the check

A type that passes the check applies known declarations only, each to no arguments or to as many as
it has parameters (`Ty.Regular.of_check`). Primitives are another matter: the check refuses them as
arguments, but not as bounds of wildcards or members of intersections. Types that mention them as
components of arrays only are `Ty.sparing`; a sparing type that passes the check is regular.

The check asks many questions on the way. None of them makes what is known about declarations
unfaithful (`Query.Preserves`), whatever comes of it.
-/

import Generics.Proofs.Composing
import Generics.Proofs.Depths
import Generics.Proofs.Readings

namespace Generics

namespace Query

variable {α β : Type} {I : Memory → Prop} {q : Query α}

/-- Asked in a memory with the property, the question leaves one with the property, whether it
answers or fails. -/
def Preserves (I : Memory → Prop) (q : Query α) : Prop := ∀ m, I m → I (q.outcome m).2

/-- After a question that preserves a property and answers, the property holds. -/
theorem Preserves.answers {a : α} {m m' : Memory} (h : Preserves I q) (hm : I m)
    (ha : q.Answers m a m') : I m' := by
  have := h m hm
  rwa [show q.outcome m = (.ok a, m') from ha] at this

/-- Answering at once preserves everything. -/
theorem Preserves.pure (a : α) : Preserves I (pure a : Query α) := fun _ hm => hm

/-- Failing at once preserves everything. -/
theorem Preserves.throw (f : Failure) : Preserves I (throw f : Query α) := fun _ hm => hm

/-- Questions one after the other preserve what both do. -/
theorem Preserves.bind {f : α → Query β} (hq : Preserves I q) (hf : ∀ a, Preserves I (f a)) :
    Preserves I (q >>= f) := by
  intro m hm
  have hm₁ := hq m hm
  rw [outcome_bind]
  split
  · next a m₁ h =>
    rw [h] at hm₁
    exact hf a m₁ hm₁
  · next h =>
    rw [h] at hm₁
    exact hm₁

/-- Looking at the memory preserves everything. -/
theorem Preserves.get : Preserves I (get : Query Memory) := fun _ hm => hm

/-- A change of the memory preserves what it keeps. -/
theorem Preserves.modify {f : Memory → Memory} (h : ∀ m, I m → I (f m)) :
    Preserves I (modify f : Query Unit) := h

/-- Of two questions that preserve a property, either may be asked. -/
theorem Preserves.ite {c : Prop} [Decidable c] {q' : Query α} (h : Preserves I q)
    (h' : Preserves I q') : Preserves I (if c then q else q') := by
  split
  · exact h
  · exact h'

/-- Two questions preserve what both do, also if the second one is not asked. -/
theorem Preserves.both {first second : Query Bool} (h₁ : Preserves I first)
    (h₂ : Preserves I second) : Preserves I (both first second) :=
  h₁.bind fun _ => .ite h₂ (.pure _)

/-- Two questions preserve what both do, also if the second one is not needed. -/
theorem Preserves.either {first second : Query Bool} (h₁ : Preserves I first)
    (h₂ : Preserves I second) : Preserves I (either first second) :=
  h₁.bind fun _ => .ite (.pure _) h₂

/-- Asking a question of some elements preserves what the question does. -/
theorem Preserves.any {ask : α → Query Bool} (h : ∀ a, Preserves I (ask a)) :
    ∀ as : List α, Preserves I (any ask as)
  | [] => .pure _
  | a :: as => (h a).either (Preserves.any h as)

/-- A steady question keeps what is known faithful. -/
theorem Steady.preserves {s : Setting} (h : Steady s q) : Preserves (Memory.Faithful s) q := by
  obtain ⟨v, hv⟩ := h
  exact fun m hm => (hv m hm).2.1

end Query

/-! ### Nothing unlearns -/

namespace Setting

open Query

variable {s : Setting} {I : Memory → Prop}

/-- The kind of memory is kept by the basic questions. -/
structure Keeps (s : Setting) (I : Memory → Prop) : Prop where
  lineage : ∀ decl, Preserves I (s.lineage decl)
  leadsTo? : ∀ decl ancestor, Preserves I (s.seek? decl ancestor) →
    Preserves I (s.leadsTo? decl ancestor)
  built : ∀ m, I m → I { m with built := m.built + 1 }
  capture : ∀ n : Nominal, (∀ σ last params, Preserves I (s.captureBounds σ last params n.args)) →
    Preserves I (s.capture n)

/-- A kind of memory that depends on nothing but what was learnt is kept if learning keeps it. -/
theorem Keeps.of_learnt (hI : ∀ m m' : Memory, m'.known = m.known → m'.routes = m.routes →
      m'.asked = m.asked → I m → I m')
    (hlineage : ∀ decl, Preserves I (s.lineage decl))
    (hleads : ∀ decl ancestor, Preserves I (s.seek? decl ancestor) →
      Preserves I (s.leadsTo? decl ancestor)) : s.Keeps I where
  lineage := hlineage
  leadsTo? := hleads
  built m := hI m _ rfl rfl rfl
  capture n hbounds := by
    unfold Setting.capture
    refine .ite (((hlineage _).bind fun _ => .pure _).bind fun _ => .ite (.throw _) ?_) (.pure _)
    refine Preserves.get.bind fun m => ?_
    dsimp only
    refine .bind (.modify fun m => hI m _ rfl rfl rfl) fun _ => ?_
    exact (hbounds _ _ _).bind fun _ => .bind (.modify fun m => hI m _ rfl rfl rfl) fun _ => .pure _

/-- A question in the realm of all that keeps a kind of memory ensures so. -/
theorem ensures_all {α : Type} {R : α → Prop} {q : Query α} (hq : Preserves I q) (hR : ∀ a, R a) :
    Ensures I R (fun _ => True) q :=
  ⟨hq, fun _ _ _ _ => hR _, fun _ _ _ _ => trivial⟩

/-- With nothing left out, the basic questions ensure that a kind of memory that they keep stays. -/
theorem Keeps.governs (hI : s.Keeps I) : Governs s .all I (fun _ => True) where
  own _ _ := trivial
  bounds _ _ _ _ := ⟨Ty.in_all _, Ty.in_all _⟩
  lineage decl _ := ensures_all (hI.lineage decl) fun _ => ⟨fun _ _ => trivial, fun n _ => n.in_all⟩
  leadsTo? decl ancestor h := ensures_all (hI.leadsTo? decl ancestor h.leaves) fun _ n _ => n.in_all
  built := hI.built
  capture n _ h := ensures_all (hI.capture n fun σ last params =>
    (h σ last params (fun _ t _ => t.in_all) fun _ _ => trivial).leaves) Nominal.in_all

end Setting

/-- **A kind of memory that the basic questions keep is kept by all that are composed of them**,
whatever comes of it. -/
theorem Query.Composed.preserves {s : Setting} {I : Memory → Prop} {α : Type} {R : α → Prop}
    {q : Query α} (hq : Composed s .all R q) (hI : s.Keeps I) : Preserves I q :=
  (hq.ensures hI.governs).leaves

namespace Setting

open Query

variable {s : Setting} {I : Memory → Prop}

/-- Asking for an upper bound preserves everything. -/
theorem upper_preserves (v : Var) : Preserves I (s.upper v) := by
  cases v with
  | declared v => exact .pure _
  | captured i => exact Preserves.get.bind fun _ => .pure _

/-- Whether an argument contains another one preserves what comparing their parts does. -/
theorem containsBy_preserves {sub : Ty → Ty → Query Bool} (hsub : ∀ a b, Preserves I (sub a b))
    (outer inner : Arg) : Preserves I (containsBy sub outer inner) := by
  cases outer <;> cases inner
  · exact .ite (.pure _) ((hsub _ _).both (hsub _ _))
  · exact .pure _
  · exact (hsub _ _).both (hsub _ _)
  · exact (hsub _ _).both (hsub _ _)

/-- Comparing types preserves every kind of memory that the basic questions keep. -/
theorem Keeps.belowWithin (hI : s.Keeps I) (depth : Nat) (trail : Trail) (a b : Ty) :
    Preserves I (s.belowWithin depth trail a b) :=
  (belowWithin_composed (Realm.closed_all _) depth trail a.in_all b.in_all).preserves hI

/-- The question leaves what is known about declarations faithful. -/
abbrev KeepsFaith {α : Type} (s : Setting) (q : Query α) : Prop := Preserves (Memory.Faithful s) q

/-- The basic questions keep what is known faithful. -/
theorem keeps_faithful (s : Setting) : s.Keeps (Memory.Faithful s) :=
  .of_learnt (fun _ _ hknown hroutes _ hm => ⟨fun l hl => hm.1 l (hknown ▸ hl),
    fun r hr => hm.2 r (hroutes ▸ hr)⟩) (fun decl => (lineage_steady s decl).preserves)
    fun decl ancestor _ => (leadsTo?_steady s decl ancestor).preserves

/-- Comparing types keeps what is known faithful. -/
theorem belowWithin_keepsFaith (depth : Nat) (trail : Trail) (a b : Ty) :
    s.KeepsFaith (s.belowWithin depth trail a b) :=
  (keeps_faithful s).belowWithin depth trail a b

/-- Checking the parameters keeps what is known faithful. -/
theorem checkedParams_keepsFaith (n : Nominal) : s.KeepsFaith (s.checkedParams n) :=
  (checkedParams_composed n.in_all).preserves (keeps_faithful s)

end Setting

/-- Checking a type keeps what is known faithful. -/
theorem Ty.check_keepsFaith {s : Setting} (t : Ty) : s.KeepsFaith (t.check s) :=
  (t.check_composed (Realm.closed_all _) t.in_all).preserves (Setting.keeps_faithful s)

/-- Checking arguments keeps what is known faithful. -/
theorem Arg.checkAll_keepsFaith {s : Setting} (n : Nominal) (as : List Arg) :
    s.KeepsFaith (Arg.checkAll s n as) :=
  (Arg.checkAll_composed (Realm.closed_all _) n as fun a _ => a.in_all).preserves
    (Setting.keeps_faithful s)

/-- Checking an argument keeps what is known faithful. -/
theorem Arg.check_keepsFaith {s : Setting} (n : Nominal) (a : Arg) : s.KeepsFaith (a.check s n) :=
  (a.check_composed (Realm.closed_all _) n a.in_all).preserves (Setting.keeps_faithful s)

/-! ### Primitives where they belong -/

mutual
/-- Whether the type mentions primitives as components of arrays only. -/
def Ty.sparing : Ty → Bool
  | .prim _ => false
  | .null => true
  | .nominal _ _ args => Arg.allSparing args
  | .array elem => elem.isPrim || elem.sparing
  | .inter _ members => Ty.allSparing members
  | .var _ => true

/-- Whether the argument mentions primitives as components of arrays only. -/
def Arg.sparing : Arg → Bool
  | .type t => t.sparing
  | .wild upper lower => upper.sparing && lower.sparing

/-- Whether the types mention primitives as components of arrays only. -/
def Ty.allSparing : List Ty → Bool
  | [] => true
  | t :: ts => t.sparing && Ty.allSparing ts

/-- Whether the arguments mention primitives as components of arrays only. -/
def Arg.allSparing : List Arg → Bool
  | [] => true
  | a :: as => a.sparing && Arg.allSparing as
end

/-- The check accepts the type, if it may nest deep enough. -/
def Setting.Accepts (s : Setting) (t : Ty) : Prop :=
  ∃ n m', (t.check (s.withDepth n)).Answers {} () m'

/-- Whether the type passes the check with comparisons nested up to the depth. -/
def Setting.acceptsWithin (s : Setting) (n : Nat) (t : Ty) : Bool :=
  ((t.check (s.withDepth n)).outcome {}).1.toBool

/-- A type that passes at some depth is accepted. -/
theorem Setting.Accepts.of_within {s : Setting} {n : Nat} {t : Ty}
    (h : s.acceptsWithin n t = true) : s.Accepts t := by
  cases hcheck : (t.check (s.withDepth n)).outcome {} with
  | mk r m' =>
    rw [acceptsWithin, hcheck] at h
    cases r with
    | error f => cases h
    | ok u => exact ⟨n, m', hcheck⟩

section Regular

open Query Setting

variable {s : Setting} {depth : Nat}

/-- Parameters that pass are those of the declaration. -/
theorem Setting.checkedParams_answers {n : Nominal} {ps : List TypeVar} {m m' : Memory}
    (hm : m.Faithful s) (h : (s.checkedParams n).Answers m ps m') :
    ∃ l, s.lineageOf n.decl = some l ∧ ps = l.params := by
  obtain ⟨qs, m₁, hqs, h⟩ := answers_bind.1 h
  obtain ⟨l, m₂, hl, hps⟩ := answers_bind.1 hqs
  have hlineage := lineage_settles_iff.1 ((lineage_steady s _).settles hm hl).1
  rw [answers_pure] at hps
  refine ⟨l, hlineage, ?_⟩
  split at h
  · exact absurd h answers_throw
  · rw [answers_pure] at h
    exact h.1.trans hps.1

mutual
/-- **A sparing type that passes the check is regular.** -/
theorem Ty.Regular.of_check : ∀ {t : Ty} {m m' : Memory}, m.Faithful s → t.isFlat = true →
    t.sparing = true → (t.check (s.withDepth depth)).Answers m () m' → t.Regular s .full
  | .prim _, _, _, _, _, hs, _ => by simp [Ty.sparing] at hs
  | .null, _, _, _, _, _, _ => by rw [Ty.Regular]; trivial
  | .nominal site decl args, m, m', hm, hf, hs, h => by
    rw [Ty.isFlat] at hf
    rw [Ty.sparing] at hs
    rw [Ty.check] at h
    obtain ⟨ps, m₁, hps, h⟩ := answers_bind.1 h
    obtain ⟨l, hl, rfl⟩ := checkedParams_answers (s := s.withDepth depth) hm hps
    have hm₁ := (checkedParams_keepsFaith (s := s.withDepth depth) _).answers hm hps
    rw [Ty.Regular]
    split at h
    · next hargs =>
      rw [List.isEmpty_iff] at hargs
      rw [hargs, Arg.RegularAll]
      exact ⟨⟨l, hl, .inl rfl⟩, trivial⟩
    · split at h
      · exact absurd h answers_throw
      · next hlen =>
        obtain ⟨_, m₂, hall, _⟩ := answers_bind.1 h
        exact ⟨⟨l, hl, .inr (by simpa using hlen)⟩, Arg.RegularAll.of_check hm₁ hf hs hall⟩
  | .array elem, _, _, hm, hf, hs, h => by
    rw [Ty.Regular]
    rw [Ty.sparing, Bool.or_eq_true] at hs
    exact hs.imp id fun hs => Ty.Regular.of_check hm hf hs h
  | .inter site members, _, _, hm, hf, hs, h => by
    rw [Ty.Regular]
    exact ⟨rfl, Ty.RegularAll.of_check hm hf hs h⟩
  | .var _, _, _, _, _, _, _ => by rw [Ty.Regular]; trivial

/-- Flat sparing types that pass the check are regular. -/
theorem Ty.RegularAll.of_check : ∀ {ts : List Ty} {m m' : Memory}, m.Faithful s →
    Ty.allFlat ts = true → Ty.allSparing ts = true →
      (Ty.checkAll (s.withDepth depth) ts).Answers m () m' → Ty.RegularAll s .full ts
  | [], _, _, _, _, _, _ => by rw [Ty.RegularAll]; trivial
  | t :: ts, m, m', hm, hf, hs, h => by
    rw [Ty.allFlat, Bool.and_eq_true, Bool.and_eq_true] at hf
    rw [Ty.allSparing, Bool.and_eq_true] at hs
    rw [Ty.checkAll] at h
    obtain ⟨_, m₁, ht, hts⟩ := answers_bind.1 h
    have hm₁ := (Ty.check_keepsFaith (s := s.withDepth depth) t).answers hm ht
    rw [Ty.RegularAll]
    exact ⟨⟨by simpa using hf.1.1, Ty.Regular.of_check hm hf.1.2 hs.1 ht⟩,
      Ty.RegularAll.of_check hm₁ hf.2 hs.2 hts⟩

/-- Flat sparing arguments that pass the check are regular. -/
theorem Arg.RegularAll.of_check : ∀ {as : List Arg} {n : Nominal} {m m' : Memory}, m.Faithful s →
    Arg.allFlat as = true → Arg.allSparing as = true →
      (Arg.checkAll (s.withDepth depth) n as).Answers m () m' → Arg.RegularAll s .full as
  | [], _, _, _, _, _, _, _ => by rw [Arg.RegularAll]; trivial
  | a :: as, n, m, m', hm, hf, hs, h => by
    rw [Arg.allFlat, Bool.and_eq_true] at hf
    rw [Arg.allSparing, Bool.and_eq_true] at hs
    rw [Arg.checkAll] at h
    obtain ⟨_, m₁, ha, has⟩ := answers_bind.1 h
    have hm₁ := (Arg.check_keepsFaith (s := s.withDepth depth) n a).answers hm ha
    rw [Arg.RegularAll]
    exact ⟨Arg.Regular.of_check hm hf.1 hs.1 ha, Arg.RegularAll.of_check hm₁ hf.2 hs.2 has⟩

/-- A flat sparing argument that passes the check is regular. -/
theorem Arg.Regular.of_check : ∀ {a : Arg} {n : Nominal} {m m' : Memory}, m.Faithful s →
    a.isFlat = true → a.sparing = true → (a.check (s.withDepth depth) n).Answers m () m' →
      a.Regular s .full
  | .type t, n, m, m', hm, hf, hs, h => by
    have ht : (t.check (s.withDepth depth)).Answers m () m' := by
      cases t with
      | prim p => exact absurd h answers_throw
      | _ => exact h
    rw [Arg.Regular]
    exact Ty.Regular.of_check hm hf hs ht
  | .wild upper lower, n, m, m', hm, hf, hs, h => by
    rw [Arg.isFlat, Bool.and_eq_true] at hf
    rw [Arg.sparing, Bool.and_eq_true] at hs
    rw [Arg.check] at h
    obtain ⟨_, m₁, hu, hl⟩ := answers_bind.1 h
    have hm₁ := (Ty.check_keepsFaith (s := s.withDepth depth) upper).answers hm hu
    rw [Arg.Regular]
    exact ⟨rfl, Ty.Regular.of_check hm hf.1 hs.1 hu, Ty.Regular.of_check hm₁ hf.2 hs.2 hl⟩
end

/-- A flat sparing type that is accepted is regular. -/
theorem Setting.Accepts.regular {t : Ty} (h : s.Accepts t) (hflat : t.isFlat = true)
    (hs : t.sparing = true) : t.Regular s .full := by
  obtain ⟨n, m', h⟩ := h
  exact Ty.Regular.of_check (Memory.faithful_empty s) hflat hs h

end Regular
end Generics
