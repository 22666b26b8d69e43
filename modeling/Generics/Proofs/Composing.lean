/-
# What questions are composed of

All questions are composed of a few: reading a declaration, finding a way up, noting that a type was
built, capturing, and looking at what is captured and how far the numbers are. `Query.Composed s K R q`
says that the question `q` is, that everything it comes upon is in the realm `K`, and that its answers
have the property `R`. Each function is followed through once here, up to comparisons
(`Setting.belowWithin_composed`) and the check of types (`Ty.check_composed`). What holds of the few and
of sequences then holds of all questions, by induction on the composition.

No question composed in this way says of itself that a declaration cannot be read: only reading a
declaration does.

What holds of questions in this way is stated by `Query.Ensures`: asked in a memory of some kind, the
question leaves one of that kind, its answers have one property and its failures another
(`Composed.ensures`).
-/

import Generics.Proofs.Decisions
import Generics.Proofs.Realms
import Generics.Query.WellFormed

namespace Generics

/-- The failure is not that a declaration cannot be read. -/
def Failure.IsOwn (f : Failure) : Prop := f.kind? ≠ some .lookup

/-- That a type is malformed is a failure of its own. -/
theorem Failure.isOwn_malformed (type detail : String) : (Failure.malformed type detail).IsOwn := by
  simp [IsOwn, kind?]

/-- That a question goes on for ever is a failure of its own. -/
theorem Failure.isOwn_exhausted : Failure.exhausted.IsOwn := by simp [IsOwn, kind?]

/-- The bounds of the captured variables of the realm are in the realm. -/
def Memory.BoundsIn (K : Realm) (m : Memory) : Prop :=
  ∀ id, K.var (.captured id) → (m.upper id).In K ∧ (m.lower id).In K

/-- The catalog leads from variables of the realm to types in it. -/
structure Realm.Closed (K : Realm) (c : Catalog) : Prop where
  object : K.decl objectName
  upper : ∀ v, K.var (.declared v) → (c.upper v).In K

/-- With nothing left out, every catalog stays in the realm. -/
theorem Realm.closed_all (c : Catalog) : Realm.all.Closed c := ⟨trivial, fun _ _ => Ty.in_all _⟩

namespace Query

/-- The question is composed of basic ones, comes upon nothing outside the realm, and its answers have
the property. -/
inductive Composed (s : Setting) (K : Realm) : {α : Type} → (α → Prop) → Query α → Prop
  | pure {α : Type} {R : α → Prop} {a : α} (h : R a) : Composed s K R (pure a)
  | throw {α : Type} {R : α → Prop} {f : Failure} (h : f.IsOwn) : Composed s K R (throw f)
  | bind {α β : Type} {P : α → Prop} {R : β → Prop} {q : Query α} {f : α → Query β}
      (hq : Composed s K P q) (hf : ∀ a, P a → Composed s K R (f a)) : Composed s K R (q >>= f)
  | lineage {decl : String} (h : K.decl decl) : Composed s K (Lineage.In K) (s.lineage decl)
  | leadsTo? {decl ancestor : String} (h : K.decl decl)
      (hseek : Composed s K (fun o => ∀ n ∈ o, n.In K) (s.seek? decl ancestor)) :
      Composed s K (fun o => ∀ n ∈ o, n.In K) (s.leadsTo? decl ancestor)
  | noteBuilt : Composed s K (fun _ => True) noteBuilt
  | capture {n : Nominal} (h : n.In K)
      (hbounds : ∀ (σ : Subst) (last : Nat) (params : List TypeVar), σ.In K →
        (∀ v ∈ params, K.var (.declared v)) →
          Composed s K (fun cs => ∀ c ∈ cs, c.upper.In K ∧ c.lower.In K)
            (s.captureBounds σ last params n.args)) :
      Composed s K (Nominal.In K) (s.capture n)
  /-- What is looked at is the same in memories that differ in what they learnt. -/
  | look {α : Type} {R : α → Prop} {f : Memory → Query α} (heq : ∀ m m', m.Learns m' → f m' = f m)
      (hf : ∀ m, m.BoundsIn K → Composed s K R (f m)) : Composed s K R (get >>= f)

/-- The question is composed of basic ones and comes upon nothing outside the realm. -/
abbrev Stays {α : Type} (s : Setting) (K : Realm) (q : Query α) : Prop := Composed s K (fun _ => True) q

namespace Composed

variable {s : Setting} {K : Realm} {α : Type} {R R' : α → Prop} {q q' : Query α}

/-- The answers of a composed question have every property that follows. -/
theorem imp (hq : Composed s K R q) (h : ∀ a, R a → R' a) : Composed s K R' q := by
  rw [← bind_pure q]
  exact hq.bind fun a ha => .pure (h a ha)

/-- Failing for a malformed type is composed. -/
theorem malformed (n : Nominal) (detail : String) : Composed s K R (malformed n detail) :=
  .throw (Failure.isOwn_malformed _ _)

/-- A choice between composed questions is composed, where each may rely on the condition. -/
theorem ite {c : Prop} [Decidable c] (hq : c → Composed s K R q) (hq' : ¬ c → Composed s K R q') :
    Composed s K R (if c then q else q') := by
  split
  · next h => exact hq h
  · next h => exact hq' h

/-- Two questions that stay in the realm do so one after the other. -/
theorem both {first second : Query Bool} (h₁ : Stays s K first) (h₂ : Stays s K second) :
    Stays s K (both first second) :=
  h₁.bind fun _ _ => .ite (fun _ => h₂) fun _ => .pure trivial

/-- Two questions of which the second is asked if needed stay in the realm. -/
theorem either {first second : Query Bool} (h₁ : Stays s K first) (h₂ : Stays s K second) :
    Stays s K (either first second) :=
  h₁.bind fun _ _ => .ite (fun _ => .pure trivial) fun _ => h₂

/-- Asking a question of all elements stays in the realm if the question does. -/
theorem all {ask : α → Query Bool} :
    ∀ {as : List α}, (∀ a ∈ as, Stays s K (ask a)) → Stays s K (all ask as)
  | [], _ => .pure trivial
  | _ :: _, h => (h _ List.mem_cons_self).both (all fun b hb => h b (List.mem_cons_of_mem _ hb))

/-- Asking a question of some elements stays in the realm if the question does. -/
theorem any {ask : α → Query Bool} :
    ∀ {as : List α}, (∀ a ∈ as, Stays s K (ask a)) → Stays s K (any ask as)
  | [], _ => .pure trivial
  | _ :: _, h => (h _ List.mem_cons_self).either (any fun b hb => h b (List.mem_cons_of_mem _ hb))

/-- A first element for which a question is answered yes is one of the elements. -/
theorem first? {ask : α → Query Bool} : ∀ {as : List α}, (∀ a ∈ as, Stays s K (ask a)) →
    Composed s K (fun o => ∀ a ∈ o, a ∈ as) (first? ask as)
  | [], _ => .pure (by simp)
  | a :: as, h => by
    refine (h a List.mem_cons_self).bind fun _ _ => .ite (fun _ => .pure (by simp)) fun _ => ?_
    refine (first? fun b hb => h b (List.mem_cons_of_mem _ hb)).imp fun o ho b hb => ?_
    exact List.mem_cons_of_mem _ (ho b hb)

end Composed

section Building

variable {s : Setting} {K : Realm} {σ : Subst}

/-- Learning does not change which site is next. -/
theorem nextSite_learns {m m' : Memory} (h : m.Learns m') : nextSite m' = nextSite m := by
  rw [nextSite, nextSite, h.built]

/-- Replacing in a type of the realm stays in it, also if nothing is replaced. -/
theorem replace?_composed (hσ : σ.In K) {t : Ty} (ht : t.In K) :
    Composed s K (fun o => ∀ u ∈ o, u.In K) (replace? σ t) := by
  unfold replace?
  refine .ite (fun _ => .pure (by simp)) fun _ => .look (fun m m' h => by rw [nextSite_learns h])
    fun m _ => ?_
  cases hsubst : t.subst? σ (nextSite m) with
  | none => exact .pure (by simp)
  | some u => exact Composed.noteBuilt.bind fun _ _ => .pure (by simpa using ht.of_subst? hσ hsubst)

/-- Replacing in a type of the realm gives a type of the realm. -/
theorem replace_composed (hσ : σ.In K) {t : Ty} (ht : t.In K) :
    Composed s K (Ty.In K) (replace σ t) := by
  refine (replace?_composed hσ ht).bind fun o ho => .pure ?_
  cases o with
  | none => exact ht
  | some u => exact ho u rfl

/-- Replacing in the arguments of a declaration of the realm stays in it. -/
theorem replaceIn_composed (hσ : σ.In K) {n : Nominal} (hn : n.In K) :
    Composed s K (Nominal.In K) (replaceIn σ n) := by
  refine .look (fun m m' h => by rw [nextSite_learns h]) fun m _ => ?_
  cases hsubst : n.subst? σ (nextSite m) with
  | none => exact .pure hn
  | some n' => exact Composed.noteBuilt.bind fun _ _ => .pure (hn.of_subst? hσ hsubst)

/-- What is built from parts of the realm is in it. -/
theorem build_composed {decl : String} {args : List Arg} (hdecl : K.decl decl)
    (hargs : ∀ a ∈ args, a.In K) : Composed s K (Nominal.In K) (build decl args) := by
  refine .look (fun m m' h => by rw [nextSite_learns h]) fun m _ => ?_
  exact Composed.noteBuilt.bind fun _ _ => .pure (Nominal.in_iff.2 ⟨hdecl, hargs⟩)

end Building

end Query

namespace Setting

open Query

variable {s : Setting} {K : Realm}

/-! ### Walking up -/

/-- The parameters of a declaration of the realm are in it. -/
theorem params_composed {decl : String} (h : K.decl decl) :
    Composed s K (fun ps => ∀ v ∈ ps, K.var (.declared v)) (s.params decl) :=
  (Composed.lineage h).bind fun _ hl => .pure hl.params

/-- Asking whether a declaration is raw stays in the realm. -/
theorem isRaw_composed {n : Nominal} (hn : n.In K) : Stays s K (s.isRaw n) :=
  .ite (fun _ => (params_composed hn.decl).bind fun _ _ => .pure trivial) fun _ => .pure trivial

/-- Walking up from declarations of the realm stays in it. -/
theorem walksTo_composed (goal : String) (remaining stack : List String)
    (h : ∀ d ∈ stack, K.decl d) : Stays s K (s.walksTo goal remaining stack) := by
  fun_induction s.walksTo goal remaining stack with
  | case1 => exact .pure trivial
  | case2 => exact .pure trivial
  | case3 remaining stack d rest hstack hd ih =>
    have hrest : ∀ e ∈ d :: rest, K.decl e := fun e he =>
      h e ((List.dropWhile_sublist _).subset (hstack ▸ he))
    refine (Composed.lineage (hrest d List.mem_cons_self)).bind fun l hl => ?_
    split
    · next hmem =>
      refine ih l hmem fun e he => ?_
      rcases List.mem_append.1 he with he | he
      · rw [List.mem_reverse] at he
        obtain ⟨n, hn, rfl⟩ := List.mem_map.1 he
        exact (hl.parents n hn).decl
      · exact hrest e (List.mem_cons_of_mem _ he)
    · exact .pure trivial

/-- Seeking the way up stays in the realm. -/
theorem seek?_composed {decl : String} (h : K.decl decl) (ancestor : String) :
    Composed s K (fun o => ∀ n ∈ o, n.In K) (s.seek? decl ancestor) := by
  refine (Composed.lineage h).bind fun l hl => ?_
  refine (Composed.first? fun n hn => walksTo_composed _ _ _ ?_).imp fun o ho n hn =>
    hl.parents n (ho n hn)
  simpa using (hl.parents n hn).decl

/-- Where the way up goes on is in the realm. -/
theorem leadsTo?_composed {decl : String} (h : K.decl decl) (ancestor : String) :
    Composed s K (fun o => ∀ n ∈ o, n.In K) (s.leadsTo? decl ancestor) :=
  .leadsTo? h (seek?_composed h ancestor)

/-- Asking whether a declaration inherits from another one stays in the realm. -/
theorem inherits_composed {decl : String} (h : K.decl decl) (ancestor : String) :
    Stays s K (s.inherits decl ancestor) :=
  .ite (fun _ => .pure trivial) fun _ =>
    .ite (fun _ => (Composed.lineage h).bind fun _ _ => .pure trivial) fun _ =>
      (leadsTo?_composed h ancestor).bind fun _ _ => .pure trivial

/-- The types of arguments of the realm are in it. -/
theorem argTypes_composed (n : Nominal) : ∀ {as : List Arg}, (∀ a ∈ as, a.In K) →
    Composed s K (fun ts => ∀ t ∈ ts, t.In K) (argTypes n as)
  | [], _ => .pure (by simp)
  | .type t :: as, h => by
    obtain ⟨ht, has⟩ := List.forall_mem_cons.1 h
    exact (argTypes_composed n has).bind fun ts hts =>
      .pure (List.forall_mem_cons.2 ⟨Arg.in_type.1 ht, hts⟩)
  | .wild _ _ :: _, _ => .malformed n _

/-- The assignment of the parameters is in the realm. -/
theorem assignment_composed {n : Nominal} (hn : n.In K) :
    Composed s K (Subst.In K) (s.assignment n) :=
  (params_composed hn.decl).bind fun _ _ => .ite (fun _ => .malformed n _) fun _ =>
    (argTypes_composed n hn.args).bind fun _ hts => .pure (.zip _ hts)

/-- Climbing stays in the realm. -/
theorem climb_composed (ancestor : String) : ∀ (steps : Nat) {n : Nominal}, n.In K →
    Composed s K (fun o => ∀ n' ∈ o, n'.In K) (s.climb ancestor steps n)
  | 0, n, hn => by
    rw [climb]
    exact .ite (fun _ => .pure (by simpa using hn)) fun _ => .throw Failure.isOwn_exhausted
  | steps + 1, n, hn => by
    rw [climb]
    refine .ite (fun _ => .pure (by simpa using hn)) fun _ =>
      (leadsTo?_composed hn.decl ancestor).bind fun o ho => ?_
    cases o with
    | none => exact .pure (by simp)
    | some parent =>
      have hparent : parent.In K := ho parent rfl
      refine .ite (fun _ => (isRaw_composed hn).bind fun _ _ => ?_) fun _ => ?_
      · exact .ite (fun _ => climb_composed ancestor steps (Nominal.in_bare hparent.decl)) fun _ =>
          climb_composed ancestor steps hparent
      · exact (assignment_composed hn).bind fun σ hσ =>
          (replaceIn_composed hσ hparent).bind fun _ hn' => climb_composed ancestor steps hn'

/-! ### Capturing -/

section Closed

variable (hK : K.Closed s.catalog)
include hK

/-- What is seen as an ancestor is in the realm. -/
theorem seenAs_composed {n : Nominal} (hn : n.In K) (ancestor : String) :
    Composed s K (fun o => ∀ n' ∈ o, n'.In K) (s.seenAs n ancestor) := by
  refine .ite (fun _ => (Composed.lineage hn.decl).bind fun _ _ => .pure ?_) fun _ =>
    climb_composed ancestor _ hn
  rintro _ ⟨⟩
  exact Nominal.in_bare hK.object

/-- The bounds that a capture gives are in the realm. -/
theorem captureBounds_composed {σ : Subst} (hσ : σ.In K) {last : Nat} {ps : List TypeVar}
    {as : List Arg} (hps : ∀ v ∈ ps, K.var (.declared v)) (has : ∀ a ∈ as, a.In K) :
    Composed s K (fun cs => ∀ c ∈ cs, c.upper.In K ∧ c.lower.In K)
      (s.captureBounds σ last ps as) := by
  fun_induction captureBounds s σ last ps as with
  | case1 last p ps upper lower as ih =>
    obtain ⟨hp, hps⟩ := List.forall_mem_cons.1 hps
    obtain ⟨ha, has⟩ := List.forall_mem_cons.1 has
    obtain ⟨hupper, hlower⟩ := Arg.in_wild.1 ha
    refine (replace_composed hσ (hK.upper p hp)).bind fun bound hbound =>
      (ih hps has).bind fun cs hcs => .pure ?_
    exact List.forall_mem_cons.2 ⟨⟨hupper.meetBounds _ hbound, hlower⟩, hcs⟩
  | case2 last p ps t as ih =>
    exact ih (List.forall_mem_cons.1 hps).2 (List.forall_mem_cons.1 has).2
  | case3 => exact .pure (by simp)

/-- Capturing stays in the realm. -/
theorem capture_composed {n : Nominal} (hn : n.In K) : Composed s K (Nominal.In K) (s.capture n) :=
  .capture hn fun _ _ _ hσ hps => captureBounds_composed hK hσ hps hn.args

/-- A supertype is in the realm. -/
theorem supertypeAs_composed {n : Nominal} (hn : n.In K) (ancestor : String) :
    Composed s K (fun o => ∀ n' ∈ o, n'.In K) (s.supertypeAs n ancestor) :=
  (capture_composed hK hn).bind fun _ hn' => seenAs_composed hK hn' ancestor

/-- The upper bound of a variable of the realm is in it. -/
theorem upper_composed {v : Var} (hv : K.var v) : Composed s K (Ty.In K) (s.upper v) := by
  cases v with
  | declared v => exact .pure (hK.upper v hv)
  | captured id =>
    refine .look (fun m m' h => ?_) fun m hm => .pure (hm id hv).1
    rw [Memory.upper, Memory.upper, Memory.captured?, Memory.captured?, h.captured]

omit hK in
/-- The lower bound of a variable of the realm is in it. -/
theorem lower_composed {v : Var} (hv : K.var v) : Composed s K (Ty.In K) (s.lower v) := by
  cases v with
  | declared v => exact .pure Ty.in_null
  | captured id =>
    refine .look (fun m m' h => ?_) fun m hm => .pure (hm id hv).2
    rw [Memory.lower, Memory.lower, Memory.captured?, Memory.captured?, h.captured]

/-! ### Comparing -/

section Comparisons

variable {sub : Ty → Ty → Query Bool} (hsub : ∀ {a b : Ty}, a.In K → b.In K → Stays s K (sub a b))
include hsub

omit hK in
/-- Comparing types in both directions stays in the realm if comparing them does. -/
theorem equivalentBy_composed {a b : Ty} (ha : a.In K) (hb : b.In K) :
    Stays s K (equivalentBy sub a b) :=
  .ite (fun _ => .pure trivial) fun _ => (hsub ha hb).both (hsub hb ha)

omit hK in
/-- Whether an argument contains another one stays in the realm if comparing types does. -/
theorem containsBy_composed {outer inner : Arg} (ho : outer.In K) (hi : inner.In K) :
    Stays s K (containsBy sub outer inner) := by
  cases outer <;> cases inner <;> simp only [Arg.in_type, Arg.in_wild] at ho hi
  · exact equivalentBy_composed hsub hi ho
  · exact .pure trivial
  · exact (hsub ho.2 hi).both (hsub hi ho.1)
  · exact (hsub ho.2 hi.2).both (hsub hi.1 ho.1)

omit hK in
/-- Whether arguments contain others stays in the realm if comparing types does. -/
theorem containsAllBy_composed : ∀ {outers inners : List Arg}, (∀ a ∈ outers, a.In K) →
    (∀ a ∈ inners, a.In K) → Stays s K (containsAllBy sub outers inners)
  | [], [], _, _ => .pure trivial
  | [], _ :: _, _, _ => .pure trivial
  | _ :: _, [], _, _ => .pure trivial
  | _ :: _, _ :: _, ho, hi => by
    obtain ⟨ho, hos⟩ := List.forall_mem_cons.1 ho
    obtain ⟨hi, his⟩ := List.forall_mem_cons.1 hi
    exact (containsBy_composed hsub ho hi).both (containsAllBy_composed hos his)

/-- Comparing declarations stays in the realm if comparing types does. -/
theorem nominalBelowBy_composed {a b : Nominal} (ha : a.In K) (hb : b.In K) :
    Stays s K (s.nominalBelowBy sub a b) := by
  refine (inherits_composed ha.decl b.decl).bind fun _ _ => .ite (fun _ => ?_) fun _ => .pure trivial
  refine .ite (fun _ => .pure trivial) fun _ => (isRaw_composed ha).bind fun _ _ => ?_
  refine .ite (fun _ => .pure trivial) fun _ => (supertypeAs_composed hK ha b.decl).bind fun o ho => ?_
  cases o with
  | none => exact .pure trivial
  | some n =>
    exact .ite (fun _ => containsAllBy_composed hsub hb.args (ho n rfl).args) fun _ => .pure trivial

end Comparisons

/-- **A comparison of types of the realm stays in it.** -/
theorem belowWithin_composed : ∀ (depth : Nat) (trail : Trail) {a b : Ty}, a.In K → b.In K →
    Stays s K (s.belowWithin depth trail a b) := by
  intro depth
  induction depth with
  | zero => exact fun _ _ _ _ _ => .throw Failure.isOwn_exhausted
  | succ depth ih =>
    intro trail a b ha hb
    rw [belowWithin.eq_def]
    dsimp only
    refine .ite (fun _ => .pure trivial) fun _ => .ite (fun _ => .pure trivial) fun _ => ?_
    have hlower : Stays s K (s.descends depth trail a b) := by
      unfold descends
      split
      · exact .ite (fun _ => .pure trivial) fun _ =>
          (lower_composed (Ty.in_var.1 hb)).bind fun _ ht => ih _ ha ht
      · exact .pure trivial
    split
    · exact nominalBelowBy_composed hK (ih []) ha hb
    · exact .all fun c hc => ih _ ha (Ty.in_inter.1 hb c hc)
    · exact ih _ (Ty.in_nominal.2 ⟨hK.object, by simp⟩) hb
    · exact (Composed.any fun c hc => ih _ (Ty.in_inter.1 ha c hc) hb).either hlower
    · refine .ite (fun _ => .pure trivial) fun _ => .ite (fun _ => hlower) fun _ => ?_
      exact ((upper_composed hK (Ty.in_var.1 ha)).bind fun _ ht => ih _ ht hb).either hlower
    · exact hlower
    · exact .ite (fun _ => .pure trivial) fun _ => ih _ (Ty.in_array.1 ha) (Ty.in_array.1 hb)
    all_goals exact .pure trivial

/-- Comparing types of the realm stays in it. -/
theorem below_composed {a b : Ty} (ha : a.In K) (hb : b.In K) : Stays s K (s.below a b) :=
  belowWithin_composed hK _ _ ha hb

/-- Whether types of the realm are equivalent stays in it. -/
theorem equivalent_composed {a b : Ty} (ha : a.In K) (hb : b.In K) : Stays s K (s.equivalent a b) :=
  equivalentBy_composed (below_composed hK) ha hb

/-! ### Checking -/

/-- Comparing the bounds of a captured variable stays in the realm. -/
theorem capturedFits_composed {id : Nat} (hid : K.var (.captured id)) :
    Stays s K (s.capturedFits id) := by
  refine .look (fun m m' h => ?_) fun m hm => below_composed hK (hm id hid).2 (hm id hid).1
  simp only [Memory.lower, Memory.upper, Memory.captured?, h.captured]

/-- Comparing arguments with bounds stays in the realm. -/
theorem checkBounds_composed (n : Nominal) {σ : Subst} (hσ : σ.In K) {ps : List TypeVar}
    {given captured : List Arg} (hps : ∀ v ∈ ps, K.var (.declared v)) (hgiven : ∀ a ∈ given, a.In K)
    (hcaptured : ∀ a ∈ captured, a.In K) : Stays s K (s.checkBounds n σ ps given captured) := by
  fun_induction checkBounds s n σ ps given captured with
  | case1 p ps t given _ captured ih =>
    obtain ⟨hp, hps⟩ := List.forall_mem_cons.1 hps
    obtain ⟨ht, hgiven⟩ := List.forall_mem_cons.1 hgiven
    refine (replace_composed hσ (hK.upper p hp)).bind fun bound hbound =>
      (below_composed hK (Arg.in_type.1 ht) hbound).bind fun _ _ => .ite (fun _ => ?_) fun _ => .malformed n _
    exact ih hps hgiven (List.forall_mem_cons.1 hcaptured).2
  | case2 p ps u l given id captured ih =>
    obtain ⟨hid, hcaptured⟩ := List.forall_mem_cons.1 hcaptured
    refine (capturedFits_composed hK (Ty.in_var.1 (Arg.in_type.1 hid))).bind fun _ _ =>
      .ite (fun _ => ?_) fun _ => .malformed n _
    exact ih (List.forall_mem_cons.1 hps).2 (List.forall_mem_cons.1 hgiven).2 hcaptured
  | case3 => exact .pure trivial

/-- Fitting the arguments of a declaration stays in the realm. -/
theorem checkFit_composed {n : Nominal} (hn : n.In K) {ps : List TypeVar}
    (hps : ∀ v ∈ ps, K.var (.declared v)) : Stays s K (s.checkFit n ps) :=
  (capture_composed hK hn).bind fun _ hcaptured => (assignment_composed hcaptured).bind fun _ hσ =>
    checkBounds_composed hK n hσ hps hn.args hcaptured.args

omit hK in
/-- Checking parameters stays in the realm. -/
theorem checkedParams_composed {n : Nominal} (hn : n.In K) :
    Composed s K (fun ps => ∀ v ∈ ps, K.var (.declared v)) (s.checkedParams n) := by
  refine (params_composed hn.decl).bind fun ps hps => ?_
  split
  · exact .malformed n _
  · exact .pure hps

end Closed

end Setting

open Query Setting in
mutual
/-- **The check of a type of the realm stays in it.** -/
theorem Ty.check_composed {s : Setting} {K : Realm} (hK : K.Closed s.catalog) :
    ∀ t : Ty, t.In K → Stays s K (t.check s)
  | .prim _, _ => .pure trivial
  | .null, _ => .pure trivial
  | .nominal site decl args, h => by
    have hn : (⟨site, decl, args⟩ : Nominal).In K := h
    rw [Ty.check]
    refine (checkedParams_composed hn).bind fun ps hps => .ite (fun _ => .pure trivial) fun _ =>
      .ite (fun _ => .malformed _ _) fun _ => ?_
    exact (Arg.checkAll_composed hK _ args hn.args).bind fun _ _ => checkFit_composed hK hn hps
  | .array elem, h => elem.check_composed hK (Ty.in_array.1 h)
  | .inter _ members, h => Ty.checkAll_composed hK members (Ty.in_inter.1 h)
  | .var (.declared _), _ => .pure trivial
  | .var (.captured id), h => by
    rw [Ty.check]
    refine (capturedFits_composed hK (Ty.in_var.1 h)).bind fun _ _ => .ite (fun _ => .pure trivial)
      fun _ => .look (fun m m' hl => ?_) fun m _ => .throw (Failure.isOwn_malformed _ _)
    simp only [Memory.lower, Memory.upper, Memory.captured?, hl.captured]

/-- Checking types of the realm stays in it. -/
theorem Ty.checkAll_composed {s : Setting} {K : Realm} (hK : K.Closed s.catalog) :
    ∀ ts : List Ty, (∀ t ∈ ts, t.In K) → Stays s K (Ty.checkAll s ts)
  | [], _ => .pure trivial
  | t :: ts, h => (t.check_composed hK (List.forall_mem_cons.1 h).1).bind fun _ _ =>
    Ty.checkAll_composed hK ts (List.forall_mem_cons.1 h).2

/-- Checking arguments of the realm stays in it. -/
theorem Arg.checkAll_composed {s : Setting} {K : Realm} (hK : K.Closed s.catalog) (n : Nominal) :
    ∀ as : List Arg, (∀ a ∈ as, a.In K) → Stays s K (Arg.checkAll s n as)
  | [], _ => .pure trivial
  | a :: as, h => (a.check_composed hK n (List.forall_mem_cons.1 h).1).bind fun _ _ =>
    Arg.checkAll_composed hK n as (List.forall_mem_cons.1 h).2

/-- Checking an argument of the realm stays in it. -/
theorem Arg.check_composed {s : Setting} {K : Realm} (hK : K.Closed s.catalog) (n : Nominal) :
    ∀ a : Arg, a.In K → Stays s K (a.check s n)
  | .type (.prim _), _ => .malformed n _
  | .type .null, h => Ty.check_composed hK .null (Arg.in_type.1 h)
  | .type (.nominal st d as), h => Ty.check_composed hK (.nominal st d as) (Arg.in_type.1 h)
  | .type (.array t), h => Ty.check_composed hK (.array t) (Arg.in_type.1 h)
  | .type (.inter st ts), h => Ty.check_composed hK (.inter st ts) (Arg.in_type.1 h)
  | .type (.var v), h => Ty.check_composed hK (.var v) (Arg.in_type.1 h)
  | .wild upper lower, h => (upper.check_composed hK (Arg.in_wild.1 h).1).bind fun _ _ =>
    lower.check_composed hK (Arg.in_wild.1 h).2
end

/-! ### From the parts to the whole -/

namespace Query

variable {α β : Type} {I : Memory → Prop} {R : α → Prop} {F : Failure → Prop} {q : Query α}

/-- Asked in a memory of the kind `I`, the question leaves one of that kind; its answers have the
property `R`, and its failures the property `F`. -/
structure Ensures (I : Memory → Prop) (R : α → Prop) (F : Failure → Prop) (q : Query α) : Prop where
  leaves : ∀ m, I m → I (q.outcome m).2
  answers : ∀ m a, I m → (q.outcome m).1 = .ok a → R a
  fails : ∀ m f, I m → (q.outcome m).1 = .error f → F f

namespace Ensures

/-- A question ensures what can be read off its outcomes. -/
theorem of_outcome (h : ∀ m, I m → I (q.outcome m).2 ∧ (∀ a, (q.outcome m).1 = .ok a → R a) ∧
    ∀ f, (q.outcome m).1 = .error f → F f) : Ensures I R F q :=
  ⟨fun m hm => (h m hm).1, fun m a hm => (h m hm).2.1 a, fun m f hm => (h m hm).2.2 f⟩

/-- A question that always answers ensures what its answers do. -/
theorem of_answers (h : ∀ m, I m → ∃ a m', q.Answers m a m' ∧ I m' ∧ R a) : Ensures I R F q := by
  refine .of_outcome fun m hm => ?_
  obtain ⟨a, m', ha, hm', hR⟩ := h m hm
  rw [show q.outcome m = (.ok a, m') from ha]
  refine ⟨hm', ?_, by simp⟩
  rintro _ ⟨⟩
  exact hR

/-- Answering at once ensures what holds of the answer. -/
theorem pure {a : α} (h : R a) : Ensures I R F (pure a) where
  leaves _ hm := hm
  answers _ _ _ ha := Except.ok.inj ha ▸ h
  fails _ _ _ hf := nomatch hf

/-- Failing at once ensures what holds of the failure. -/
theorem throw {f : Failure} (h : F f) : Ensures I R F (throw f) where
  leaves _ hm := hm
  answers _ _ _ ha := nomatch ha
  fails _ _ _ hf := Except.error.inj hf ▸ h

/-- Looking at the memory ensures that it is of its kind. -/
theorem get : Ensures I I F get where
  leaves _ hm := hm
  answers _ _ hm ha := Except.ok.inj ha ▸ hm
  fails _ _ _ hf := nomatch hf

/-- A change of the memory ensures that it stays of its kind. -/
theorem modify {f : Memory → Memory} (h : ∀ m, I m → I (f m)) :
    Ensures I (fun _ => True) F (modify f) where
  leaves := h
  answers _ _ _ _ := trivial
  fails _ _ _ hf := nomatch hf

/-- Questions one after the other ensure what the second one does, given what the first one does. -/
theorem bind {P : α → Prop} {R : β → Prop} {f : α → Query β} (hq : Ensures I P F q)
    (hf : ∀ a, P a → Ensures I R F (f a)) : Ensures I R F (q >>= f) := by
  have hcases : ∀ m, I m → (∃ a, P a ∧ I (q.outcome m).2 ∧
      (q >>= f).outcome m = (f a).outcome (q.outcome m).2) ∨
        ∃ e, F e ∧ (q >>= f).outcome m = (.error e, (q.outcome m).2) := by
    intro m hm
    have hout := outcome_bind q f m
    rcases hq' : q.outcome m with ⟨(e | a), m₁⟩
    · rw [hq'] at hout
      exact .inr ⟨e, hq.fails m e hm (by rw [hq']), hout⟩
    · rw [hq'] at hout
      exact .inl ⟨a, hq.answers m a hm (by rw [hq']), by simpa [hq'] using hq.leaves m hm, hout⟩
  constructor
  · intro m hm
    obtain ⟨a, ha, hm₁, hout⟩ | ⟨e, he, hout⟩ := hcases m hm
    · exact hout ▸ (hf a ha).leaves _ hm₁
    · exact hout ▸ hq.leaves m hm
  · intro m b hm hb
    obtain ⟨a, ha, hm₁, hout⟩ | ⟨e, he, hout⟩ := hcases m hm
    · exact (hf a ha).answers _ b hm₁ (hout ▸ hb)
    · rw [hout] at hb
      cases hb
  · intro m g hm hg
    obtain ⟨a, ha, hm₁, hout⟩ | ⟨e, he, hout⟩ := hcases m hm
    · exact (hf a ha).fails _ g hm₁ (hout ▸ hg)
    · rw [hout] at hg
      exact Except.error.inj hg ▸ he

/-- What answers are ensured to be may be weakened. -/
theorem imp {R' : α → Prop} (hq : Ensures I R F q) (h : ∀ a, R a → R' a) : Ensures I R' F q :=
  ⟨hq.leaves, fun m a hm ha => h a (hq.answers m a hm ha), hq.fails⟩

/-- What failures are ensured to be may be weakened. -/
theorem failing {F' : Failure → Prop} (hq : Ensures I R F q) (h : ∀ f, F f → F' f) : Ensures I R F' q :=
  ⟨hq.leaves, hq.answers, fun m f hm hf => h f (hq.fails m f hm hf)⟩

/-- A choice between questions ensures what both do, where each may rely on the condition. -/
theorem ite {c : Prop} [Decidable c] {q' : Query α} (hq : c → Ensures I R F q)
    (hq' : ¬ c → Ensures I R F q') : Ensures I R F (if c then q else q') := by
  split
  · next h => exact hq h
  · next h => exact hq' h

/-- Two questions ensure together what both do. -/
theorem both {first second : Query Bool} (h₁ : Ensures I (fun _ => True) F first)
    (h₂ : Ensures I (fun _ => True) F second) : Ensures I (fun _ => True) F (both first second) :=
  h₁.bind fun _ _ => .ite (fun _ => h₂) fun _ => .pure trivial

/-- Two questions of which the second is asked if needed ensure what both do. -/
theorem either {first second : Query Bool} (h₁ : Ensures I (fun _ => True) F first)
    (h₂ : Ensures I (fun _ => True) F second) : Ensures I (fun _ => True) F (either first second) :=
  h₁.bind fun _ _ => .ite (fun _ => .pure trivial) fun _ => h₂

/-- Asking a question of all elements ensures what the question does. -/
theorem all {ask : α → Query Bool} : ∀ {as : List α},
    (∀ a ∈ as, Ensures I (fun _ => True) F (ask a)) → Ensures I (fun _ => True) F (all ask as)
  | [], _ => .pure trivial
  | _ :: _, h => (h _ List.mem_cons_self).both (all fun b hb => h b (List.mem_cons_of_mem _ hb))

/-- Asking a question of some elements ensures what the question does. -/
theorem any {ask : α → Query Bool} : ∀ {as : List α},
    (∀ a ∈ as, Ensures I (fun _ => True) F (ask a)) → Ensures I (fun _ => True) F (any ask as)
  | [], _ => .pure trivial
  | _ :: _, h => (h _ List.mem_cons_self).either (any fun b hb => h b (List.mem_cons_of_mem _ hb))

end Ensures

/-- In the realm and with memories of the kind `I`, the basic questions ensure what they should. -/
structure Governs (s : Setting) (K : Realm) (I : Memory → Prop) (F : Failure → Prop) : Prop where
  own : ∀ f : Failure, f.IsOwn → F f
  bounds : ∀ m, I m → m.BoundsIn K
  lineage : ∀ decl, K.decl decl → Ensures I (Lineage.In K) F (s.lineage decl)
  leadsTo? : ∀ decl ancestor, Ensures I (fun o => ∀ n ∈ o, n.In K) F (s.seek? decl ancestor) →
    Ensures I (fun o => ∀ n ∈ o, n.In K) F (s.leadsTo? decl ancestor)
  built : ∀ m, I m → I { m with built := m.built + 1 }
  capture : ∀ n : Nominal, n.In K → (∀ (σ : Subst) (last : Nat) (params : List TypeVar), σ.In K →
    (∀ v ∈ params, K.var (.declared v)) →
      Ensures I (fun cs => ∀ c ∈ cs, c.upper.In K ∧ c.lower.In K) F
        (s.captureBounds σ last params n.args)) → Ensures I (Nominal.In K) F (s.capture n)

/-- **What the basic questions ensure, all questions composed of them ensure.** -/
theorem Composed.ensures {s : Setting} {K : Realm} (hg : Governs s K I F) (hq : Composed s K R q) :
    Ensures I R F q := by
  induction hq with
  | pure h => exact .pure h
  | throw h => exact .throw (hg.own _ h)
  | bind _ _ ihq ihf => exact ihq.bind ihf
  | lineage h => exact hg.lineage _ h
  | leadsTo? _ _ ih => exact hg.leadsTo? _ _ ih
  | noteBuilt => exact .modify hg.built
  | capture h _ ih => exact hg.capture _ h ih
  | look _ _ ih => exact Ensures.get.bind fun m hm => ih m (hg.bounds m hm)

end Query
end Generics
