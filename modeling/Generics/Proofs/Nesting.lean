/-
# How deep wildcards nest

`Ty.Nests Γ position n t` says that wildcards nest at most `n` deep in a type. A captured variable
counts as the wildcard that it stands for: one more than its bounds. Intersections stand only where a
type is a whole side of a comparison or a bound, never in a type argument, since type arguments are
compared in both directions.

Where no wildcard stands in a supertype, and no wildcard or parameter in a bound, the nesting does
not grow on the way up:

- capturing gives each wildcard a variable that nests as deep (`Setting.nests_captureArgs`);
- seen as an ancestor, the arguments nest no deeper (`Setting.SeenAs.nests`).
-/

import Generics.Proofs.Decisions

namespace Generics

/-- Where a type stands: intersections may stand in bounds, not in arguments. -/
inductive Position
  | argument
  | bound
deriving DecidableEq

mutual
/-- Whether the type has no variables, wildcards nest in it at most so deep, and intersections do not
stand in its type arguments. -/
def Ty.nests (position : Position) (n : Nat) : Ty → Bool
  | .prim _ => true
  | .null => true
  | .nominal _ _ args => Arg.allNest n args
  | .array elem => elem.nests position n
  | .inter _ members => position == .bound && Ty.allNest n members
  | .var _ => false

/-- Whether wildcards nest in the arguments, and by themselves, at most so deep. -/
def Arg.allNest (n : Nat) : List Arg → Bool
  | [] => true
  | .type t :: as => t.nests .argument n && Arg.allNest n as
  | .wild upper lower :: as =>
    0 < n && upper.nests .bound (n - 1) && lower.nests .bound (n - 1) && Arg.allNest n as

/-- Whether wildcards nest in the members of an intersection at most so deep. -/
def Ty.allNest (n : Nat) : List Ty → Bool
  | [] => true
  | t :: ts => t.nests .bound n && Ty.allNest n ts
end

/-- Wildcards nest in the type at most so deep, where a captured variable nests deeper than its
bounds, and intersections do not stand in type arguments. -/
inductive Ty.Nests (Γ : Scope) : Position → Nat → Ty → Prop
  | prim {position : Position} {n : Nat} (p : Primitive) : Ty.Nests Γ position n (.prim p)
  | null {position : Position} {n : Nat} : Ty.Nests Γ position n .null
  | nominal {position : Position} {n : Nat} {site : Site} {decl : String} {args : List Arg} :
    (∀ t, Arg.type t ∈ args → Ty.Nests Γ .argument n t) →
      (∀ u l, Arg.wild u l ∈ args → 0 < n) →
        (∀ u l, Arg.wild u l ∈ args → Ty.Nests Γ .bound (n - 1) u) →
          (∀ u l, Arg.wild u l ∈ args → Ty.Nests Γ .bound (n - 1) l) →
            Ty.Nests Γ position n (.nominal site decl args)
  | array {position : Position} {n : Nat} {elem : Ty} :
    Ty.Nests Γ position n elem → Ty.Nests Γ position n (.array elem)
  | inter {n : Nat} {site : Site} {members : List Ty} :
    (∀ t ∈ members, Ty.Nests Γ .bound n t) → Ty.Nests Γ .bound n (.inter site members)
  | captured {position : Position} {n i : Nat} :
    i ≤ Γ.last → Ty.Nests Γ .bound n (Γ.upper i) → Ty.Nests Γ .bound n (Γ.lower i) →
      Ty.Nests Γ position (n + 1) (.var (.captured i))

namespace Ty.Nests

variable {Γ Δ : Scope} {position : Position} {n k : Nat} {t : Ty}

/-- Types nest no deeper when the scope gets larger. -/
theorem mono (h : t.Nests Γ position n) (hΓ : Γ.Le Δ) (hle : n ≤ k) : t.Nests Δ position k := by
  induction h generalizing k with
  | prim p => exact .prim p
  | null => exact .null
  | nominal _ hpos _ _ htypes hupper hlower =>
    refine .nominal (fun t ht => htypes t ht hle) (fun u l h => ?_) (fun u l h => ?_) fun u l h => ?_
    · exact Nat.lt_of_lt_of_le (hpos u l h) hle
    · exact hupper u l h (Nat.sub_le_sub_right hle 1)
    · exact hlower u l h (Nat.sub_le_sub_right hle 1)
  | array _ ih => exact .array (ih hle)
  | inter _ ih => exact .inter fun t ht => ih t ht hle
  | captured hi _ _ hupper hlower =>
    obtain ⟨k, rfl⟩ : ∃ j, k = j + 1 := ⟨k - 1, by omega⟩
    refine .captured (Nat.le_trans hi hΓ.last) ?_ ?_
    · rw [hΓ.upper _ hi]
      exact hupper (by omega)
    · rw [hΓ.lower _ hi]
      exact hlower (by omega)

/-- What may stand as an argument may stand in a bound. -/
theorem loose (h : t.Nests Γ position n) : t.Nests Γ .bound n := by
  induction h with
  | prim p => exact .prim p
  | null => exact .null
  | nominal htypes hpos hupper hlower => exact .nominal htypes hpos hupper hlower
  | array _ ih => exact .array ih
  | inter h => exact .inter h
  | captured hi hupper hlower => exact .captured hi hupper hlower

/-- The conjuncts of a type nest no deeper than it. -/
theorem conjuncts (h : t.Nests Γ .bound n) : ∀ c ∈ t.conjuncts, c.Nests Γ .bound n := by
  cases h with
  | inter h => exact h
  | _ => exact fun c hc => by rw [List.mem_singleton.1 hc]; constructor <;> assumption

/-- The meet of bounds nests no deeper than these. -/
theorem meetBounds {site : Site} {u : Ty} (ht : t.Nests Γ .bound n) (hu : u.Nests Γ .bound n) :
    (Ty.meetBounds site t u).Nests Γ .bound n := by
  rw [Ty.meetBounds]
  split
  · exact hu
  · split
    · exact ht
    · rw [Ty.meet]
      split
      · exact .inter (by simp)
      · refine .inter fun c hc => ?_
        rw [List.flatMap_cons, List.flatMap_cons, List.flatMap_nil, List.append_nil,
          List.mem_append] at hc
        exact hc.elim (ht.conjuncts c) (hu.conjuncts c)

end Ty.Nests

mutual
/-- A type without variables nests as deep as it was found to, whatever takes the place of variables. -/
theorem Ty.Nests.of_nests {Γ : Scope} {f : Var → Ty} :
    ∀ {position : Position} {n : Nat} {t : Ty}, t.nests position n = true →
      (t.rebuild f).Nests Γ position n
  | _, _, .prim p, _ => .prim p
  | _, _, .null, _ => .null
  | _, n, .nominal _ decl args, h => by
    rw [Ty.nests] at h
    obtain ⟨htypes, hwilds⟩ := Arg.nests_of_allNest (Γ := Γ) (f := f) h
    rw [Ty.rebuild]
    exact .nominal htypes (fun u l h => (hwilds u l h).1) (fun u l h => (hwilds u l h).2.1)
      fun u l h => (hwilds u l h).2.2
  | _, _, .array elem, h => by
    rw [Ty.nests] at h
    exact .array (Ty.Nests.of_nests h)
  | _, n, .inter _ members, h => by
    rw [Ty.nests, Bool.and_eq_true, beq_iff_eq] at h
    obtain ⟨rfl, h⟩ := h
    exact .inter (Ty.nests_of_allNest h)
  | _, _, .var _, h => by cases h

/-- Arguments in which wildcards are found to nest at most so deep do. -/
theorem Arg.nests_of_allNest {Γ : Scope} {f : Var → Ty} :
    ∀ {n : Nat} {args : List Arg}, Arg.allNest n args = true →
      (∀ t, Arg.type t ∈ Arg.rebuildAll f args → t.Nests Γ .argument n) ∧
        ∀ u l, Arg.wild u l ∈ Arg.rebuildAll f args →
          0 < n ∧ u.Nests Γ .bound (n - 1) ∧ l.Nests Γ .bound (n - 1)
  | _, [], _ => ⟨fun _ h => (List.not_mem_nil h).elim, fun _ _ h => (List.not_mem_nil h).elim⟩
  | n, .type t :: as, h => by
    rw [Arg.allNest, Bool.and_eq_true] at h
    obtain ⟨htypes, hwilds⟩ := Arg.nests_of_allNest (Γ := Γ) (f := f) h.2
    rw [Arg.rebuildAll, Arg.rebuild]
    refine ⟨fun u hu => ?_, fun u l hu => ?_⟩
    · rcases List.mem_cons.1 hu with hu | hu
      · injection hu with hu
        exact hu ▸ Ty.Nests.of_nests h.1
      · exact htypes u hu
    · rcases List.mem_cons.1 hu with hu | hu
      · cases hu
      · exact hwilds u l hu
  | n, .wild upper lower :: as, h => by
    rw [Arg.allNest, Bool.and_eq_true, Bool.and_eq_true, Bool.and_eq_true, decide_eq_true_iff] at h
    obtain ⟨htypes, hwilds⟩ := Arg.nests_of_allNest (Γ := Γ) (f := f) h.2
    rw [Arg.rebuildAll, Arg.rebuild]
    refine ⟨fun u hu => ?_, fun u l hu => ?_⟩
    · rcases List.mem_cons.1 hu with hu | hu
      · cases hu
      · exact htypes u hu
    · rcases List.mem_cons.1 hu with hu | hu
      · injection hu with hu hl
        exact ⟨h.1.1.1, hu ▸ Ty.Nests.of_nests h.1.1.2, hl ▸ Ty.Nests.of_nests h.1.2⟩
      · exact hwilds u l hu

/-- Members in which wildcards are found to nest at most so deep do. -/
theorem Ty.nests_of_allNest {Γ : Scope} {f : Var → Ty} :
    ∀ {n : Nat} {ts : List Ty}, Ty.allNest n ts = true →
      ∀ t ∈ Ty.rebuildParts f ts, t.Nests Γ .bound n
  | _, [], _ => fun _ h => (List.not_mem_nil h).elim
  | n, t :: ts, h => by
    rw [Ty.allNest, Bool.and_eq_true] at h
    intro u hu
    rw [Ty.rebuildParts, List.mem_append] at hu
    rcases hu with hu | hu
    · exact (Ty.Nests.of_nests h.1).conjuncts u hu
    · exact Ty.nests_of_allNest h.2 u hu
end

/-- The types among the shapes of arguments are shapes of types among them. -/
theorem Arg.of_type_mem_shapes {args : List Arg} {t : Ty} (h : Arg.type t ∈ args.map Arg.shape) :
    ∃ u, Arg.type u ∈ args ∧ t = u.shape := by
  obtain ⟨a, ha, hat⟩ := List.mem_map.1 h
  cases a with
  | wild u l => cases hat
  | type u =>
    injection hat with hat
    exact ⟨u, ha, hat.symm⟩

/-- The wildcards among the shapes of arguments are shapes of wildcards among them. -/
theorem Arg.of_wild_mem_shapes {args : List Arg} {u l : Ty} (h : Arg.wild u l ∈ args.map Arg.shape) :
    ∃ u' l', Arg.wild u' l' ∈ args ∧ u = u'.shape ∧ l = l'.shape := by
  obtain ⟨a, ha, hal⟩ := List.mem_map.1 h
  cases a with
  | type t => cases hal
  | wild u' l' =>
    injection hal with hu hl
    exact ⟨u', l', ha, hu.symm, hl.symm⟩

/-- The shape nests as deep as the type. -/
theorem Ty.Nests.shape {Γ : Scope} {position : Position} {n : Nat} {t : Ty}
    (h : t.Nests Γ position n) : t.shape.Nests Γ position n := by
  induction h with
  | prim p => exact .prim p
  | null => exact .null
  | nominal _ hpos _ _ htypes hupper hlower =>
    rw [Ty.shape_nominal]
    refine .nominal (fun t ht => ?_) (fun u l hw => ?_) (fun u l hw => ?_) fun u l hw => ?_
    · obtain ⟨u, hu, rfl⟩ := Arg.of_type_mem_shapes ht
      exact htypes u hu
    all_goals obtain ⟨u', l', hw', rfl, rfl⟩ := Arg.of_wild_mem_shapes hw
    · exact hpos u' l' hw'
    · exact hupper u' l' hw'
    · exact hlower u' l' hw'
  | array _ ih => exact .array ih
  | inter _ ih =>
    refine .inter fun c hc => ?_
    rw [Ty.rebuildParts_eq_flatMap] at hc
    obtain ⟨t, ht, hc⟩ := List.mem_flatMap.1 hc
    exact (ih t ht).conjuncts c hc
  | captured hi hupper hlower => exact .captured hi hupper hlower

mutual
/-- **A plain type nests no deeper than what takes the place of its variables.** -/
theorem Ty.Regular.nests {s : Setting} {Γ : Scope} {f : Var → Ty} {n : Nat} :
    ∀ {t : Ty}, t.Regular s .plain → (∀ v ∈ t.vars, (f v).Nests Γ .argument n) →
      (t.rebuild f).Nests Γ .argument n
  | .prim p, _, _ => .prim p
  | .null, _, _ => .null
  | .nominal _ decl args, h, hf => by
    rw [Ty.Regular] at h
    rw [Ty.vars] at hf
    have hargs := Arg.RegularAll.nests h.2 hf
    rw [Ty.rebuild]
    refine .nominal (fun t ht => ?_) (fun u l hu => ?_) (fun u l hu => ?_) fun u l hu => ?_
    · obtain ⟨u, hu, hnests⟩ := hargs _ ht
      injection hu with hu
      exact hu ▸ hnests
    all_goals
      obtain ⟨u, hu, -⟩ := hargs _ hu
      cases hu
  | .array elem, h, hf => by
    rw [Ty.Regular] at h
    rw [Ty.vars] at hf
    rcases h with h | h
    · cases elem with
      | prim p => exact .array (.prim p)
      | _ => cases h
    · exact .array (h.nests hf)
  | .inter _ _, h, _ => by
    rw [Ty.Regular] at h
    cases h.1
  | .var v, _, hf => hf v (by simp [Ty.vars])

/-- Plain arguments nest no deeper than what is put in. -/
theorem Arg.RegularAll.nests {s : Setting} {Γ : Scope} {f : Var → Ty} {n : Nat} :
    ∀ {as : List Arg}, Arg.RegularAll s .plain as → (∀ v ∈ Arg.varsAll as, (f v).Nests Γ .argument n) →
      ∀ a ∈ Arg.rebuildAll f as, ∃ t, a = .type t ∧ t.Nests Γ .argument n
  | [], _, _ => fun _ h => (List.not_mem_nil h).elim
  | .wild _ _ :: _, h, _ => by
    rw [Arg.RegularAll, Arg.Regular] at h
    cases h.1.1
  | .type t :: as, h, hf => by
    rw [Arg.RegularAll, Arg.Regular] at h
    rw [Arg.varsAll, List.forall_mem_append] at hf
    intro a ha
    rcases List.mem_cons.1 ha with rfl | ha
    · exact ⟨_, rfl, h.1.nests hf.1⟩
    · exact Arg.RegularAll.nests h.2 hf.2 a ha
end

namespace Setting

variable {s : Setting} {Γ : Scope} {n : Nat} {decl ancestor : String} {args found : List Arg}

/-- Inheritance has no cycle, supertypes are plain, and bounds have no variables and no wildcards. -/
structure Firm (s : Setting) : Prop where
  regular : s.Regular .full
  acyclic : s.Acyclic
  parents : s.ParentsRegular .plain
  bounds : ∀ decl l, s.lineageOf decl = some l → ∀ p ∈ l.params,
    (s.catalog.upper p).nests .bound 0 = true

/-- **A captured variable nests as deep as the wildcard it stands for.** -/
theorem nests_captureArgs (hs : s.Firm) {k : Fragment} {l : Lineage}
    (htakes : s.Takes k decl l args) {position : Position} {site : Site}
    (h : (Ty.nominal site decl args).Nests Γ position n) :
    ∀ t, Arg.type t ∈ captureArgs Γ.last args → t.Nests (Γ.capture s decl args) .argument n := by
  have hle := Scope.le_capture s Γ decl args
  cases h with
  | nominal htypes hpos hupper hlower =>
    intro t ht
    rcases mem_captureArgs ht with ⟨hmem, -⟩ | ⟨j, hj, heq⟩
    · exact (htypes t hmem).mono hle (Nat.le_refl n)
    · injection heq with heq
      subst heq
      have hlast : Γ.last + 1 + j ≤ (Γ.capture s decl args).last :=
        show _ ≤ Γ.last + args.countP Arg.isWild by omega
      have hnew : Γ.last < Γ.last + 1 + j := by omega
      obtain ⟨⟨p, u, l'⟩, hslot⟩ := slot?_isSome htakes.length_le hnew hlast
      obtain ⟨hp, hwild⟩ := mem_slots (mem_slots_of_slot? hslot).1
      rw [paramsOf_eq htakes.lineage] at hp
      obtain ⟨k, rfl⟩ : ∃ k, n = k + 1 := ⟨n - 1, by have := hpos u l' hwild; omega⟩
      refine .captured hlast ?_ ?_
      · rw [Scope.capture_upper hslot]
        exact .meetBounds ((hupper u l' hwild).shape.mono hle (Nat.le_refl k))
          ((Ty.Nests.of_nests (hs.bounds decl l htakes.lineage p hp)).mono (.refl _) (Nat.zero_le k))
      · rw [Scope.capture_lower hslot]
        exact (hlower u l' hwild).shape.mono hle (Nat.le_refl k)

/-- **Seen as an ancestor, the arguments nest no deeper**, where supertypes are plain. -/
theorem SeenAs.nests (hs : s.Firm) (h : s.SeenAs ancestor decl args found)
    (hfits : s.Fits decl args) (hargs : ∀ t, Arg.type t ∈ args → t.Nests Γ .argument n) :
    ∀ t, Arg.type t ∈ found → t.Nests Γ .argument n := by
  induction h with
  | here args => exact hargs
  | @up decl args found parent hne hlead _ ih =>
    refine ih (Fits.inherited hs.parents.fit hlead) fun t ht => ?_
    obtain ⟨l, -, -, -, hregular, -⟩ := hs.parents.of_leadsTo hlead
    obtain ⟨b, hb, f, heq, hf⟩ := mem_inherited hs.parents hlead hfits ht
    have hreg := Arg.regularAll_iff.1 hregular b hb
    cases b with
    | wild u l => cases heq
    | type u =>
      injection heq with heq
      rw [Arg.Regular] at hreg
      rw [heq]
      refine hreg.nests fun v hv => ?_
      obtain ⟨t', ht', hfv⟩ := hf v hv
      rw [hfv]
      exact (hargs t' ht').shape

end Setting

/-! ### Types that can be compared -/

/-- The type can be compared in the scope, and wildcards nest in it at most so deep. -/
structure Ty.Ranked (s : Setting) (Γ : Scope) (C : Nat → Prop) (position : Position) (n : Nat)
    (t : Ty) : Prop where
  whole : t.Whole s .full
  isOver : t.Over C
  nests : t.shape.Nests Γ position n

namespace Ty.Ranked

variable {s : Setting} {Γ Δ : Scope} {C D : Nat → Prop} {position : Position} {n k : Nat} {t : Ty}
  {site : Site}

/-- Types stay ranked when the scope gets larger. -/
theorem mono (h : t.Ranked s Γ C position n) (hΓ : Γ.Le Δ) (hC : ∀ i, C i → D i) :
    t.Ranked s Δ D position n := ⟨h.whole, h.isOver.mono hC, h.nests.mono hΓ (Nat.le_refl n)⟩

/-- What is ranked as an argument is ranked as a bound. -/
theorem loose (h : t.Ranked s Γ C position n) : t.Ranked s Γ C .bound n :=
  ⟨h.whole, h.isOver, h.nests.loose⟩

/-- The top declaration has any rank. -/
theorem object (hs : s.Regular .full) : Ty.object.Ranked s Γ C position n := by
  refine ⟨(Ty.regular_object hs).whole, Ty.over_object, ?_⟩
  rw [Ty.shape_object]
  refine .nominal ?_ ?_ ?_ ?_ <;> simp

/-- What is ranked as an argument is no intersection. -/
theorem isInter (h : t.Ranked s Γ C .argument n) : t.isInter = false := by
  cases t with
  | inter => cases h.nests
  | _ => rfl

/-- The types among the arguments have the rank of the declaration. -/
theorem type {decl : String} {args : List Arg}
    (h : (Ty.nominal site decl args).Ranked s Γ C position n) (ht : Arg.type t ∈ args) :
    t.Ranked s Γ C .argument n := by
  have hreg := h.whole.nominal
  rw [Ty.Regular] at hreg
  refine ⟨((Arg.regularAll_iff.1 hreg.2 _ ht).parts List.mem_cons_self).whole,
    h.isOver.arg ht List.mem_cons_self, ?_⟩
  have hnests := h.nests
  rw [Ty.shape_nominal] at hnests
  cases hnests with
  | nominal htypes => exact htypes _ (List.mem_map_of_mem (f := Arg.shape) ht)

/-- The bounds of a wildcard nest less deep. -/
theorem wild {decl : String} {args : List Arg} {u l : Ty}
    (h : (Ty.nominal site decl args).Ranked s Γ C position n) (hw : Arg.wild u l ∈ args) :
    ∃ k, n = k + 1 ∧ u.Ranked s Γ C .bound k ∧ l.Ranked s Γ C .bound k := by
  have hreg := h.whole.nominal
  rw [Ty.Regular] at hreg
  have hparts := fun t (ht : t ∈ (Arg.wild u l).parts) =>
    And.intro ((Arg.regularAll_iff.1 hreg.2 _ hw).parts ht).whole (h.isOver.arg hw ht)
  have hnests := h.nests
  rw [Ty.shape_nominal] at hnests
  cases hnests with
  | nominal _ hpos hupper hlower =>
    have hw' := List.mem_map_of_mem (f := Arg.shape) hw
    obtain ⟨k, rfl⟩ : ∃ k, n = k + 1 := ⟨n - 1, by have := hpos _ _ hw'; omega⟩
    obtain ⟨huw, huo⟩ := hparts u List.mem_cons_self
    obtain ⟨hlw, hlo⟩ := hparts l (List.mem_cons_of_mem _ List.mem_cons_self)
    exact ⟨k, rfl, ⟨huw, huo, hupper _ _ hw'⟩, hlw, hlo, hlower _ _ hw'⟩

/-- The component of an array has the rank of the array. -/
theorem component (h : (Ty.array t).Ranked s Γ C position n) : t.Ranked s Γ C position n := by
  refine ⟨h.whole.component, fun v hv => h.isOver v (by rwa [Ty.vars]), ?_⟩
  cases h.nests with
  | array h => exact h

/-- The members of an intersection have its rank, and are no intersections. -/
theorem member {ts : List Ty} (h : (Ty.inter site ts).Ranked s Γ C position n) (ht : t ∈ ts) :
    t.isInter = false ∧ t.Ranked s Γ C .bound n := by
  obtain ⟨hinter, hreg⟩ := h.whole.members t ht
  have hnests := h.nests
  rw [Ty.shape_inter (h.whole.resolve_left (by simp [Ty.isPrim]))] at hnests
  cases hnests with
  | inter hts => exact ⟨hinter, hreg.whole, h.isOver.member ht, hts _ (List.mem_map_of_mem ht)⟩

/-- The bounds of a captured variable nest less deep. -/
theorem bounds {i : Nat} (h : (Ty.var (.captured i)).Ranked s Γ C position n)
    (hΓ : Γ.Sound s .full C) {m : Memory} (hm : m.Within s .full Γ) :
    ∃ k, n = k + 1 ∧ (m.upper i).Ranked s Γ C .bound k ∧ (m.lower i).Ranked s Γ C .bound k := by
  have hi := h.isOver.captured
  cases h.nests with
  | @captured _ k _ _ hupper hlower =>
    refine ⟨k, rfl, ⟨(hm.regular_upper hΓ hi).whole, hm.over_upper hΓ hi, ?_⟩,
      (hm.regular_lower hΓ hi).whole, hm.over_lower hΓ hi, ?_⟩
    · rw [hm.upper hΓ hi]
      exact hupper
    · rw [hm.lower hΓ hi]
      exact hlower

end Ty.Ranked

/-- **What is found where two applied declarations meet nests no deeper than the first of them**, in
the scope that was captured. -/
theorem Setting.Meets.ranked {s : Setting} {Γ : Scope} {C : Nat → Prop} {m m' : Memory}
    {position : Position} {p : Nat} {n n' : Nominal} {cs : List Arg} (hs : s.Firm)
    (hΓ : Γ.Sound s .full C) (hm : m.Within s .full Γ) (hn : n.toTy.Ranked s Γ C position p)
    (h : s.Meets .full m n n' cs m') :
    m'.scope.Sound s .full (Scope.widen C m.scope m'.scope) ∧ ∀ c ∈ cs, ∃ t, c = .type t ∧
      t.Ranked s m'.scope (Scope.widen C m.scope m'.scope) .argument p := by
  obtain ⟨l, hsuits⟩ := suits_of_regular hn.whole.nominal hn.isOver
  have htakes := hsuits.shape.toTakes
  have hfits := fits_captureArgs htakes m.scope.last
  refine ⟨?_, fun c hc => ?_⟩
  · rw [h.scope]
    exact (hΓ.mono hm.le).capture hs.regular hsuits.shape
  have hmem : c.shape ∈ cs.map Arg.shape := List.mem_map_of_mem hc
  have hwild := h.isWild hs.regular htakes c hc
  cases c with
  | wild u l => cases hwild
  | type t =>
    refine ⟨t, rfl, ((h.regular _ hc).parts List.mem_cons_self).whole, fun v hv => ?_, ?_⟩
    · rw [h.scope]
      refine ((h.seen.regular hs.regular hfits (regular_captureArgs htakes m.scope.last)
        hsuits.shape.over_captureArgs) _ hmem).2 v ?_
      rw [Arg.shape_type, Arg.vars, Ty.vars_shape]
      exact hv
    · have hnests := hn.nests.mono hm.le (Nat.le_refl p)
      rw [Nominal.toTy, Ty.shape_nominal] at hnests
      rw [h.scope]
      exact h.seen.nests hs hfits (nests_captureArgs hs htakes hnests) _ hmem

end Generics
