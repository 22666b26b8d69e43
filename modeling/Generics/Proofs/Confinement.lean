/-
# Inference stays in its realm

An inference in which the target and the declaration are in a realm comes upon nothing outside of it
(`Inference.infer_composed`): constraints are reduced to constraints on parts and bounds, unknowns are
filed with such constraints and solved by their types, and branches are problems of the same kind. The
failures of an inference are contradictions, missing information and the limit on reductions; none of
them says that a declaration cannot be read.
-/

import Generics.Inference.Diamond
import Generics.Proofs.Composing

namespace Generics.Inference

open Query

variable {s : Setting} {K : Realm}

/-- The result is an answer with the property, or a failure of the inference itself. -/
def Fair {α : Type} (R : α → Prop) : Except Failure α → Prop
  | .ok a => R a
  | .error f => f.IsOwn

/-- What is made of a fair result is fair. -/
theorem Fair.map {α β : Type} {R : α → Prop} {R' : β → Prop} {g : α → β} {r : Except Failure α}
    (h : Fair R r) (hg : ∀ a, R a → R' (g a)) : Fair R' (r.map g) := by
  cases r with
  | error f => exact h
  | ok a => exact hg a h

/-- The constraint relates types of the realm. -/
structure Constraint.In (K : Realm) (c : Constraint) : Prop where
  lhs : c.lhs.In K
  rhs : c.rhs.In K

/-- The unknown, what is filed with it and its solution are in the realm. -/
structure Unknown.In (K : Realm) (u : Unknown) : Prop where
  var : K.var (.declared u.var)
  upper : ∀ c ∈ u.upper, c.In K
  equal : ∀ c ∈ u.equal, c.In K
  lower : ∀ c ∈ u.lower, c.In K
  solution : ∀ t ∈ u.solution, t.In K

/-- The unknowns and the pending constraints are in the realm. -/
structure Problem.In (K : Realm) (p : Problem) : Prop where
  unknowns : ∀ u ∈ p.unknowns, u.In K
  pending : ∀ c ∈ p.pending, c.In K

/-- What the constraint asks for is in the realm. -/
def Reduction.In (K : Realm) : Reduction → Prop
  | .filed unknowns => ∀ u ∈ unknowns, u.In K
  | .allOf cs => ∀ c ∈ cs, c.In K
  | .oneOf cs => ∀ c ∈ cs, c.In K
  | .refuted f => f.IsOwn

/-- The solutions are in the realm, and the failure is one of the search itself. -/
structure Outcome.In (K : Realm) (o : Outcome) : Prop where
  solutions : ∀ ts ∈ o.solutions, ∀ t ∈ ts, t.In K
  failure : ∀ f ∈ o.failure, f.IsOwn

/-- What a problem is advanced to is in the realm. -/
def Progress.In (K : Realm) : Progress → Prop
  | .further p => p.In K
  | .fork branches => ∀ p ∈ branches, p.In K
  | .done o => o.In K

/-! ### Constraints -/

namespace Constraint

/-- The failure of a constraint is the search's own. -/
theorem isOwn_failure (c : Constraint) : c.failure.IsOwn := by simp [failure, Failure.IsOwn, Failure.kind?]

/-- A constraint turned around is in the realm. -/
theorem In.flip {c : Constraint} (hc : c.In K) : c.flip.In K := ⟨hc.rhs, hc.lhs⟩

/-- What a constraint on types of the realm asks for is in it. -/
theorem child_in (c : Constraint) {a b : Ty} (rel : Relation) (ha : a.In K) (hb : b.In K) :
    (c.child a rel b).In K := ⟨ha, hb⟩

/-- Replacing unknowns in a constraint stays in the realm. -/
theorem replace_composed {σ : Subst} (hσ : σ.In K) {c : Constraint} (hc : c.In K) :
    Composed s K (Constraint.In K) (c.replace σ) := by
  refine (replace?_composed hσ hc.lhs).bind fun lhs hlhs =>
    (replace?_composed hσ hc.rhs).bind fun rhs hrhs => ?_
  have hl : (lhs.getD c.lhs).In K := by
    cases lhs with
    | none => exact hc.lhs
    | some t => exact hlhs t rfl
  have hr : (rhs.getD c.rhs).In K := by
    cases rhs with
    | none => exact hc.rhs
    | some t => exact hrhs t rfl
  split
  · exact .pure hc
  · exact .pure (c.child_in _ hl hr)

/-- Replacing unknowns in constraints stays in the realm. -/
theorem replaceAll_composed {σ : Subst} (hσ : σ.In K) : ∀ {cs : List Constraint},
    (∀ c ∈ cs, c.In K) → Composed s K (fun cs' => ∀ c ∈ cs', c.In K) (replaceAll σ cs)
  | [], _ => .pure (by simp)
  | _ :: _, h => by
    obtain ⟨hc, hcs⟩ := List.forall_mem_cons.1 h
    exact (replace_composed hσ hc).bind fun _ hc' => (replaceAll_composed hσ hcs).bind fun _ hcs' =>
      .pure (List.forall_mem_cons.2 ⟨hc', hcs'⟩)

/-- What is asked of an argument is asked of types of the realm. -/
theorem matchArg_in (c : Constraint) {a b : Arg} (ha : a.In K) (hb : b.In K) {cs : List Constraint}
    (h : c.matchArg a b = some cs) : ∀ d ∈ cs, d.In K := by
  cases a with
  | wild u l => cases h
  | type t =>
    have ht := Arg.in_type.1 ha
    cases b with
    | type t' =>
      cases h
      simpa using c.child_in .equal ht (Arg.in_type.1 hb)
    | wild u l =>
      cases h
      obtain ⟨hu, hl⟩ := Arg.in_wild.1 hb
      simpa using ⟨c.child_in .below hl ht, c.child_in .below ht hu⟩

/-- What is asked of arguments is asked of types of the realm. -/
theorem matchArgs_in (c : Constraint) : ∀ {as bs : List Arg} {cs : List Constraint},
    (∀ a ∈ as, a.In K) → (∀ b ∈ bs, b.In K) → c.matchArgs as bs = some cs → ∀ d ∈ cs, d.In K
  | [], _, _, _, _, h => by
    cases h
    simp
  | _ :: _, [], _, _, _, h => by
    cases h
    simp
  | a :: as, b :: bs, cs, ha, hb, h => by
    obtain ⟨ha, has⟩ := List.forall_mem_cons.1 ha
    obtain ⟨hb, hbs⟩ := List.forall_mem_cons.1 hb
    rw [matchArgs] at h
    split at h
    · next cs₁ more hfirst hrest =>
      cases h
      exact List.forall_mem_append.2 ⟨matchArg_in c ha hb hfirst, matchArgs_in c has hbs hrest⟩
    · cases h

/-! ### Reductions -/

/-- A refuted constraint leaves nothing outside the realm. -/
theorem refuted_in (c : Constraint) : (Reduction.refuted c.failure).In K := c.isOwn_failure

/-- A constraint that asks for nothing more is in the realm. -/
theorem allOf_nil : (Reduction.allOf []).In K := fun _ h => absurd h List.not_mem_nil

/-- A constraint that asks for one more, on types of the realm, is in it. -/
theorem allOf_child (c : Constraint) {a b : Ty} (rel : Relation) (ha : a.In K) (hb : b.In K) :
    (Reduction.allOf [c.child a rel b]).In K := List.forall_mem_singleton.2 (c.child_in rel ha hb)

/-- Asking for both directions stays in the realm. -/
theorem bothWays_in (c : Constraint) {a b : Ty} (ha : a.In K) (hb : b.In K) :
    (c.bothWays a b).In K := by
  simpa [bothWays, Reduction.In] using ⟨c.child_in .below ha hb, c.child_in .above ha hb⟩

/-- Reducing arrays stays in the realm. -/
theorem reduceArray_in (c : Constraint) {a b : Ty} (ha : a.In K) (hb : b.In K) :
    (c.reduceArray a b).In K := by
  unfold reduceArray
  split
  · split
    · exact allOf_nil
    · exact c.refuted_in
  · exact c.allOf_child .below ha hb

/-- Reducing an equality stays in the realm. -/
theorem reduceEqual_in (c : Constraint) {a b : Ty} (ha : a.In K) (hb : b.In K) :
    (c.reduceEqual a b).In K := by
  unfold reduceEqual
  split
  · split
    · exact c.refuted_in
    · split
      · exact c.bothWays_in ha hb
      · intro d hd
        obtain ⟨⟨t, u⟩, hmem, rfl⟩ := List.mem_map.1 hd
        exact c.child_in .equal (Arg.in_types (Ty.in_nominal.1 ha).2 t (List.of_mem_zip hmem).1)
          (Arg.in_types (Ty.in_nominal.1 hb).2 u (List.of_mem_zip hmem).2)
  · exact c.bothWays_in ha hb

section Closed

variable (hK : K.Closed s.catalog)
include hK

/-- Reducing applied declarations stays in the realm. -/
theorem reduceNominal_composed (c : Constraint) {a b : Nominal} (ha : a.In K) (hb : b.In K) :
    Composed s K (Reduction.In K) (c.reduceNominal s a b) := by
  have hrefuted : Composed s K (Reduction.In K) (Pure.pure (.refuted c.failure)) := .pure c.refuted_in
  refine (Setting.inherits_composed ha.decl b.decl).bind fun _ _ => .ite (fun _ => ?_) fun _ => hrefuted
  refine .ite (fun _ => .pure allOf_nil) fun _ => (Setting.isRaw_composed ha).bind fun _ _ => ?_
  refine .ite (fun _ => hrefuted) fun _ => (Setting.supertypeAs_composed hK ha b.decl).bind fun o ho => ?_
  cases o with
  | none => exact hrefuted
  | some n =>
    refine .ite (fun _ => ?_) fun _ => hrefuted
    split
    · next cs hcs => exact .pure (matchArgs_in c (ho n rfl).args hb.args hcs)
    · exact hrefuted

/-- Reducing a constraint that one type is below another one stays in the realm. -/
theorem reduceBelow_composed (c : Constraint) {a b : Ty} (ha : a.In K) (hb : b.In K) :
    Composed s K (Reduction.In K) (c.reduceBelow s a b) := by
  have hobject : Ty.object.In K := Ty.in_nominal.2 ⟨hK.object, by simp⟩
  unfold reduceBelow
  split
  · exact reduceNominal_composed hK c ha hb
  · exact .pure allOf_nil
  · refine .pure fun d hd => ?_
    obtain ⟨t, ht, rfl⟩ := List.mem_map.1 hd
    exact c.child_in .below ha (Ty.in_inter.1 hb t ht)
  · exact .pure (c.allOf_child .below hobject hb)
  · refine (Setting.lower_composed (Ty.in_var.1 hb)).bind fun l hl => .pure fun d hd => ?_
    rcases List.mem_append.1 hd with hd | hd
    · obtain ⟨t, ht, rfl⟩ := List.mem_map.1 hd
      exact c.child_in .below (Ty.in_inter.1 ha t ht) hb
    · exact List.mem_singleton.1 hd ▸ c.child_in .below ha hl
  · refine .pure fun d hd => ?_
    obtain ⟨t, ht, rfl⟩ := List.mem_map.1 hd
    exact c.child_in .below (Ty.in_inter.1 ha t ht) hb
  · refine .ite (fun _ => .pure allOf_nil) fun _ => ?_
    refine (Setting.upper_composed hK (Ty.in_var.1 ha)).bind fun u hu =>
      (Setting.lower_composed (Ty.in_var.1 hb)).bind fun l hl => .pure ?_
    simpa [Reduction.In] using ⟨c.child_in .below hu hb, c.child_in .below ha hl⟩
  · exact (Setting.upper_composed hK (Ty.in_var.1 ha)).bind fun u hu =>
      .pure (c.allOf_child .below hu hb)
  · exact (Setting.lower_composed (Ty.in_var.1 hb)).bind fun l hl =>
      .pure (c.allOf_child .below ha hl)
  · exact .pure (c.reduceArray_in (Ty.in_array.1 ha) (Ty.in_array.1 hb))
  · split
    · exact .pure allOf_nil
    · exact .pure c.refuted_in
  · split
    · exact .pure allOf_nil
    · exact .pure c.refuted_in
  · exact .pure c.refuted_in

/-- Reducing a constraint without unknowns stays in the realm. -/
theorem reduceRigid_composed {c : Constraint} (hc : c.In K) :
    Composed s K (Reduction.In K) (c.reduceRigid s) := by
  unfold reduceRigid
  split
  · exact reduceBelow_composed hK c hc.lhs hc.rhs
  · exact reduceBelow_composed hK c hc.rhs hc.lhs
  · exact .pure (c.reduceEqual_in hc.lhs hc.rhs)

end Closed

end Constraint

/-! ### Unknowns -/

namespace Unknown

/-- A new constraint is filed beside those that were filed. -/
theorem file_in {u : Unknown} {c : Constraint} (hu : u.In K) (hc : c.In K) :
    Fair (Unknown.In K) (u.file c) := by
  have hadd : ∀ {cs : List Constraint}, (∀ d ∈ cs, d.In K) → ∀ d ∈ cs ++ [c], d.In K := fun h =>
    List.forall_mem_append.2 ⟨h, List.forall_mem_singleton.2 hc⟩
  unfold file
  split
  · split
    · exact hu
    · exact c.isOwn_failure
  · split
    · exact ⟨hu.var, hadd hu.upper, hu.equal, hu.lower, hu.solution⟩
    · exact ⟨hu.var, hu.upper, hadd hu.equal, hu.lower, hu.solution⟩
    · exact ⟨hu.var, hu.upper, hu.equal, hadd hu.lower, hu.solution⟩

/-- Filing a constraint keeps unknowns in the realm. -/
theorem fileWith_in (key : VarKey) {c : Constraint} (hc : c.In K) : ∀ {us : List Unknown},
    (∀ u ∈ us, u.In K) → Fair (fun us' => ∀ u ∈ us', u.In K) (fileWith key c us)
  | [], h => h
  | _ :: _, h => by
    obtain ⟨hu, hus⟩ := List.forall_mem_cons.1 h
    rw [fileWith]
    split
    · exact (file_in hu hc).map fun _ hu' => List.forall_mem_cons.2 ⟨hu', hus⟩
    · exact (fileWith_in key hc hus).map fun _ hus' => List.forall_mem_cons.2 ⟨hu, hus'⟩

/-- Promoting keeps an unknown in the realm. -/
theorem promote_in (mentions : Ty → Bool) {u : Unknown} (hu : u.In K) : (u.promote mentions).In K := by
  unfold promote
  split
  · exact hu
  · split
    · exact hu
    · next c hfind =>
      refine ⟨hu.var, hu.upper, fun d hd => hu.equal d (List.mem_of_mem_eraseP hd), hu.lower, ?_⟩
      rintro _ ⟨⟩
      exact (hu.equal c (List.mem_of_find?_eq_some hfind)).rhs

/-- Handing on what is filed with an unknown stays in the realm. -/
theorem hand_composed {σ : Subst} (hσ : σ.In K) {u : Unknown} (hu : u.In K) :
    Composed s K (fun r => r.1.In K ∧ ∀ c ∈ r.2, c.In K) (u.hand σ) := by
  refine .ite (fun _ => .pure ⟨hu, by simp⟩) fun _ => ?_
  refine (Constraint.replaceAll_composed hσ hu.upper).bind fun upper hupper =>
    (Constraint.replaceAll_composed hσ hu.equal).bind fun equal hequal =>
      (Constraint.replaceAll_composed hσ hu.lower).bind fun lower hlower => ?_
  refine .ite (fun _ => .pure ⟨⟨hu.var, by simp, by simp, by simp, hu.solution⟩, ?_⟩) fun _ =>
    .pure ⟨⟨hu.var, hupper, hequal, hlower, hu.solution⟩, by simp⟩
  exact List.forall_mem_append.2 ⟨List.forall_mem_append.2 ⟨hupper, hequal⟩, hlower⟩

/-- Handing on what is filed stays in the realm. -/
theorem handAll_composed {σ : Subst} (hσ : σ.In K) : ∀ {us : List Unknown}, (∀ u ∈ us, u.In K) →
    Composed s K (fun r => (∀ u ∈ r.1, u.In K) ∧ ∀ c ∈ r.2, c.In K) (handAll σ us)
  | [], _ => .pure (by simp)
  | _ :: _, h => by
    obtain ⟨hu, hus⟩ := List.forall_mem_cons.1 h
    exact (hand_composed hσ hu).bind fun _ hr => (handAll_composed hσ hus).bind fun _ hrs =>
      .pure ⟨List.forall_mem_cons.2 ⟨hr.1, hrs.1⟩, List.forall_mem_append.2 ⟨hr.2, hrs.2⟩⟩

section Closed

variable (hK : K.Closed s.catalog)
include hK

/-- The bounds that clash are in the realm. -/
theorem clash?_composed {u : Unknown} (hu : u.In K) :
    Composed s K (fun o => ∀ c ∈ o, c.In K) (u.clash? s) := by
  have hpairs : ∀ pair ∈ u.lower.flatMap fun low => u.upper.map fun high => (low, high),
      pair.1.In K ∧ pair.2.In K := by
    intro pair hpair
    obtain ⟨low, hlow, hpair⟩ := List.mem_flatMap.1 hpair
    obtain ⟨high, hhigh, rfl⟩ := List.mem_map.1 hpair
    exact ⟨hu.lower low hlow, hu.upper high hhigh⟩
  refine (Composed.first? fun pair hpair => ?_).bind fun o ho => .pure ?_
  · exact (Setting.below_composed hK (hpairs pair hpair).1.rhs (hpairs pair hpair).2.rhs).bind
      fun _ _ => .pure trivial
  · intro c hc
    obtain ⟨pair, hpair, rfl⟩ := Option.map_eq_some_iff.1 hc
    have hmem := hpairs pair (ho pair hpair)
    exact pair.1.child_in .below hmem.1.rhs hmem.2.rhs

/-- Whether an unknown admits a type of the realm stays in it. -/
theorem admits_composed {u : Unknown} (hu : u.In K) {t : Ty} (ht : t.In K) :
    Stays s K (u.admits s t) :=
  .both (.all fun high hhigh => Setting.below_composed hK ht (hu.upper high hhigh).rhs)
    (.all fun low hlow => Setting.below_composed hK (hu.lower low hlow).rhs ht)

/-- Picking a bound keeps an unknown in the realm. -/
theorem pick_composed (mentions : Ty → Bool) {u : Unknown} (hu : u.In K) :
    Composed s K (Fair (Unknown.In K)) (u.pick s mentions) := by
  have hbounds : ∀ c ∈ u.lower ++ u.upper, c.In K := List.forall_mem_append.2 ⟨hu.lower, hu.upper⟩
  refine .ite (fun _ => (clash?_composed hK hu).bind fun o ho => ?_) fun _ => .pure hu
  cases o with
  | some c => exact .pure c.isOwn_failure
  | none =>
    refine (Composed.first? fun c hc => admits_composed hK hu (hbounds c hc).rhs).bind fun o ho => ?_
    cases o with
    | none => exact .pure hu
    | some c =>
      refine .pure ⟨hu.var, by simp, hu.equal, by simp, ?_⟩
      rintro _ ⟨⟩
      exact (hbounds c (ho c rfl)).rhs

/-- Picking bounds keeps unknowns in the realm. -/
theorem pickAll_composed (mentions : Ty → Bool) : ∀ {us : List Unknown}, (∀ u ∈ us, u.In K) →
    Composed s K (Fair fun us' => ∀ u ∈ us', u.In K) (pickAll s mentions us)
  | [], h => .pure h
  | _ :: _, h => by
    obtain ⟨hu, hus⟩ := List.forall_mem_cons.1 h
    refine (pick_composed hK mentions hu).bind fun r hr => ?_
    cases r with
    | error f => exact .pure hr
    | ok u' =>
      exact (pickAll_composed mentions hus).bind fun rs hrs =>
        .pure (hrs.map fun _ hus' => List.forall_mem_cons.2 ⟨hr, hus'⟩)

end Closed

end Unknown

/-! ### Problems -/

namespace Problem

variable {p : Problem}

/-- A problem with more constraints of the realm is in it. -/
theorem In.push (hp : p.In K) {cs : List Constraint} (hcs : ∀ c ∈ cs, c.In K) : (p.push cs).In K :=
  ⟨hp.unknowns, List.forall_mem_append.2 ⟨hp.pending, hcs⟩⟩

/-- The solutions of some unknowns are in the realm. -/
theorem solutionsWhere_in (hp : p.In K) (cond : Unknown → Bool) : (p.solutionsWhere cond).In K := by
  refine Subst.in_empty.insertAll fun pair hpair => ?_
  obtain ⟨u, hu, hpair⟩ := List.mem_filterMap.1 hpair
  split at hpair
  · obtain ⟨t, ht, rfl⟩ := Option.map_eq_some_iff.1 hpair
    exact (hp.unknowns u hu).solution t ht
  · cases hpair

/-- Filing a constraint keeps a problem in the realm. -/
theorem file_in (hp : p.In K) (key : VarKey) {c : Constraint} (hc : c.In K) :
    (p.file key c).In K := by
  have hfiled := Unknown.fileWith_in key hc hp.unknowns
  unfold file
  split
  · next us hus => exact (hus ▸ hfiled : Fair _ (.ok us))
  · next f hf => exact (hf ▸ hfiled : Fair _ (.error f))

/-- The outcome of a problem of the realm is in it. -/
theorem outcome_in (hp : p.In K) : p.outcome.In K := by
  unfold outcome
  dsimp only
  split
  · refine ⟨?_, by simp⟩
    rintro _ ⟨⟩ t ht
    obtain ⟨u, hu, ht⟩ := List.mem_filterMap.1 ht
    exact (hp.unknowns u hu).solution t ht
  · refine ⟨by simp, ?_⟩
    rintro _ ⟨⟩
    simp [Failure.IsOwn, Failure.kind?]

/-- Promoting keeps a problem in the realm. -/
theorem promote_in (hp : p.In K) : p.promote.In K := by
  refine ⟨fun u hu => ?_, hp.pending⟩
  obtain ⟨u', hu', rfl⟩ := List.mem_map.1 hu
  exact Unknown.promote_in _ (hp.unknowns u' hu')

/-- Handing on keeps a problem in the realm. -/
theorem hand_composed (hp : p.In K) : Composed s K (Problem.In K) p.hand :=
  (Unknown.handAll_composed (solutionsWhere_in hp _) hp.unknowns).bind fun _ hr =>
    .pure ⟨hr.1, List.forall_mem_append.2 ⟨hp.pending, hr.2⟩⟩

/-- Settling keeps a problem in the realm. -/
theorem settle_composed : ∀ (n : Nat) {p : Problem}, p.In K → Composed s K (Problem.In K) (settle n p)
  | 0, _, hp => .pure hp
  | n + 1, _, hp => .ite (fun _ => (hand_composed (promote_in hp)).bind fun _ hp' =>
      settle_composed n hp') fun _ => .pure (promote_in hp)

section Closed

variable (hK : K.Closed s.catalog)
include hK

/-- A problem that starts with variables of the realm is in it. -/
theorem start_in {vars : List TypeVar} (hvars : ∀ v ∈ vars, K.var (.declared v)) :
    (Problem.start s vars).In K := by
  refine ⟨fun u hu => ?_, fun c hc => ?_⟩
  · obtain ⟨v, hv, rfl⟩ := List.mem_map.1 hu
    exact ⟨hvars v hv, by simp, by simp, by simp, by simp⟩
  · obtain ⟨v, hv, rfl | rfl⟩ := pending_start hc
    · exact ⟨Ty.in_var.2 (hvars v hv), hK.upper v (hvars v hv)⟩
    · exact ⟨Ty.in_var.2 (hvars v hv), Ty.in_null⟩

/-- **Reducing a constraint of the realm leads to constraints of the realm.** -/
theorem reduce_composed (hp : p.In K) {c : Constraint} (hc : c.In K) :
    Composed s K (Reduction.In K) (p.reduce s c) := by
  refine (Constraint.replace_composed (solutionsWhere_in hp _) hc).bind fun c' hc' => ?_
  split
  · exact .ite (fun _ => Constraint.reduceRigid_composed hK hc') fun _ => .pure (file_in hp _ hc')
  · split
    · exact .ite (fun _ => Constraint.reduceRigid_composed hK hc') fun _ =>
        .pure (file_in hp _ hc'.flip)
    · exact Constraint.reduceRigid_composed hK hc'

/-- Advancing by a constraint of the realm stays in it. -/
theorem advanceBy_composed (hp : p.In K) {c : Constraint} (hc : c.In K) {rest : List Constraint}
    (hrest : ∀ d ∈ rest, d.In K) : Composed s K (Progress.In K) (p.advanceBy s c rest) := by
  have hp' : Problem.In K { p with pending := rest } := ⟨hp.unknowns, hrest⟩
  refine (reduce_composed hK hp' hc).bind fun r hr => ?_
  cases r with
  | filed us => exact .pure ⟨hr, hrest⟩
  | allOf cs => exact .pure (hp'.push hr)
  | oneOf cs =>
    refine .pure fun q hq => ?_
    obtain ⟨d, hd, rfl⟩ := List.mem_map.1 hq
    have hpush := hp'.push (List.forall_mem_singleton.2 (hr d hd))
    exact ⟨hpush.unknowns, hpush.pending⟩
  | refuted f => exact .pure ⟨by simp, by rintro _ ⟨⟩; exact hr⟩

/-- Picking keeps a problem in the realm. -/
theorem pick_composed (hp : p.In K) :
    Composed s K (Fair (Problem.In K)) (p.pick s) :=
  (Unknown.pickAll_composed hK p.mentions hp.unknowns).bind fun _ hr =>
    .pure (hr.map fun _ hus => ⟨hus, hp.pending⟩)

/-- Advancing a settled problem stays in the realm. -/
theorem advanceSettled_composed (hp : p.In K) :
    Composed s K (Progress.In K) (p.advanceSettled s) := by
  refine (settle_composed _ hp).bind fun p₁ hp₁ => .ite (fun _ => ?_) fun _ => .pure hp₁
  refine (pick_composed hK hp₁).bind fun r hr => ?_
  cases r with
  | error f => exact .pure ⟨by simp, by rintro _ ⟨⟩; exact hr⟩
  | ok p₂ =>
    have hp₂ : p₂.In K := hr
    exact .ite (fun _ => .pure ⟨hp₂.unknowns, hp₂.pending⟩) fun _ => .pure (outcome_in hp₂)

/-- Advancing a problem stays in the realm. -/
theorem advance_composed (hp : p.In K) : Composed s K (Progress.In K) (p.advance s) := by
  unfold advance
  split
  · next c rest hpending =>
    obtain ⟨hc, hrest⟩ := List.forall_mem_cons.1 (hpending ▸ hp.pending)
    exact advanceBy_composed hK hp hc hrest
  · exact advanceSettled_composed hK hp

end Closed

end Problem

/-! ### Searches -/

namespace Outcome

/-- An outcome merged with one of a branch is in the realm. -/
theorem In.merge {o branch : Outcome} (ho : o.In K) (hb : branch.In K) : (o.merge branch).In K := by
  unfold Outcome.merge
  refine ⟨?_, by simp⟩
  dsimp only
  split
  · exact ho.solutions
  · exact hb.solutions

/-- An outcome that is closed for failures of the search itself is in the realm. -/
theorem In.close {o : Outcome} (ho : o.In K) {failures : List Failure}
    (hf : ∀ f ∈ failures, f.IsOwn) : (o.close failures).In K := by
  unfold Outcome.close
  split
  · exact ho
  · refine ⟨ho.solutions, ?_⟩
    rintro _ ⟨⟩
    unfold blame
    split
    · next f hfind => exact hf f (List.mem_of_find?_eq_some hfind)
    · cases failures with
      | nil => simp [Failure.IsOwn, Failure.kind?]
      | cons f fs => exact hf f List.mem_cons_self

end Outcome

/-- Searching the branches of a fork stays in the realm if searching each one does. -/
theorem searchBranches_composed (exhaustive : Bool)
    {search : Problem → Effort → Query (Outcome × Effort)}
    (hsearch : ∀ p effort, p.In K → Composed s K (fun r => r.1.In K) (search p effort)) :
    ∀ (ps : List Problem) (o : Outcome) (failures : List Failure) (effort : Effort),
      (∀ p ∈ ps, p.In K) → o.In K → (∀ f ∈ failures, f.IsOwn) →
        Composed s K (fun r => r.1.In K) (searchBranches exhaustive search ps o failures effort)
  | [], _, _, _, _, ho, hf => .pure (ho.close hf)
  | p :: ps, o, failures, effort, hps, ho, hf => by
    obtain ⟨hp, hps⟩ := List.forall_mem_cons.1 hps
    refine (hsearch p effort hp).bind fun r hr => ?_
    refine .ite (fun _ => .pure ⟨ho.solutions, hr.failure⟩) fun _ => ?_
    have hf' : ∀ f ∈ (if r.1.solutions.isSome then failures else failures ++ r.1.failure.toList),
        f.IsOwn := by
      split
      · exact hf
      · exact List.forall_mem_append.2 ⟨hf, fun f h => hr.failure f (Option.mem_toList.1 h)⟩
    exact .ite (fun _ => .pure ((ho.merge hr).close hf')) fun _ =>
      searchBranches_composed exhaustive hsearch ps _ _ _ hps (ho.merge hr) hf'

section Closed

variable (hK : K.Closed s.catalog)
include hK

/-- Searching a problem of the realm stays in it. -/
theorem searchWithin_composed : ∀ (n : Nat) (p : Problem) (effort : Effort), p.In K →
    Composed s K (fun r => r.1.In K) (searchWithin s n p effort) := by
  intro n
  induction n with
  | zero => exact fun _ _ _ => .throw Failure.isOwn_exhausted
  | succ n ih =>
    intro p effort hp
    have hrunaway : (p.runaway s).In K := by
      refine ⟨by simp [Problem.runaway], ?_⟩
      rintro _ ⟨⟩
      simp [Failure.IsOwn, Failure.kind?]
    rw [searchWithin]
    refine .ite (fun _ => .pure hrunaway) fun _ => (Problem.advance_composed hK hp).bind fun r hr => ?_
    cases r with
    | done o => exact .pure hr
    | further p' => exact ih p' _ hr
    | fork branches =>
      exact searchBranches_composed _ ih branches _ _ _ hr ⟨by simp, by simp⟩ (by simp)

/-- **An inference for a target and a declaration of the realm stays in it.** -/
theorem infer_composed {target : Ty} (ht : target.In K) {decl : String} (hd : K.decl decl) :
    Stays s K (infer s target decl) := by
  refine (Setting.params_composed hd).bind fun params hparams => ?_
  have hargs : ∀ a ∈ params.map fun v => Arg.type (.var (.declared v)), a.In K := by
    intro a ha
    obtain ⟨v, hv, rfl⟩ := List.mem_map.1 ha
    exact Arg.in_type.2 (Ty.in_var.2 (hparams v hv))
  refine (build_composed hd hargs).bind fun seed hseed => ?_
  have hproblem := (Problem.start_in hK hparams).push (List.forall_mem_singleton.2
    (⟨hseed, ht⟩ : Constraint.In K { lhs := seed.toTy, rel := .below, rhs := target }))
  refine (searchWithin_composed hK _ _ {} hproblem).bind fun r hr => ?_
  obtain ⟨o, effort⟩ := r
  dsimp only
  split
  · next types htypes =>
    have hresult : ∀ a ∈ types.map Arg.type, a.In K := by
      intro a ha
      obtain ⟨t, ht, rfl⟩ := List.mem_map.1 ha
      exact Arg.in_type.2 (hr.solutions types htypes t ht)
    exact (build_composed hd hresult).bind fun _ _ => .pure trivial
  · refine .throw ?_
    cases hfail : o.failure with
    | none => simp [Failure.IsOwn, Failure.kind?]
    | some f => exact hr.failure f hfail

end Closed

end Generics.Inference
