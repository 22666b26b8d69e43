/-
# Comparisons side by side

Two comparisons of alike types, in memories that agree, have the same answer if both answer
(`Setting.belowWithin_parallel`). The variables whose bounds were gone through must stand for each other as
well (`Trail.Like`). How deep the comparisons may nest need not be the same.
-/

import Generics.Proofs.Parallels

namespace Generics

/-- The same variables were gone through, up to what stands for what. -/
def Trail.Like (ρ : Pairing) (trail trail' : Trail) : Prop :=
  ∀ v w, ρ.var v w → ∀ side, (v.key, side) ∈ trail ↔ (w.key, side) ∈ trail'

namespace Trail.Like

variable {ρ : Pairing} {trail trail' : Trail}

/-- Nothing was gone through on either side. -/
theorem nil : Trail.Like ρ [] [] := fun _ _ _ _ => by simp

/-- Going through paired variables keeps trails alike. -/
theorem cons (hρ : ρ.Sharp) (h : Trail.Like ρ trail trail') {v w : Var} (hv : ρ.var v w) (side : Side) :
    Trail.Like ρ ((v.key, side) :: trail) ((w.key, side) :: trail') := by
  intro x y hxy other
  rw [List.mem_cons, List.mem_cons, Prod.mk.injEq, Prod.mk.injEq, h x y hxy other, hρ.key_eq hxy hv]

/-- Paired variables were gone through together. -/
theorem contains_eq (h : Trail.Like ρ trail trail') {v w : Var} (hv : ρ.var v w) (side : Side) :
    trail.contains (v.key, side) = trail'.contains (w.key, side) := by
  rw [Bool.eq_iff_iff, List.contains_iff_mem, List.contains_iff_mem]
  exact h v w hv side

end Trail.Like

namespace Setting

open Query

variable {s : Setting} {ρ : Pairing} {a a' b b' : Ty}

/-- Paired variables have alike lower bounds. -/
theorem lower_parallel {v w : Var} (hv : ρ.var v w) :
    Parallel (Memory.Pairs s ρ) (Ty.Like ρ) (s.lower v) (s.lower w) := by
  cases v with
  | declared v =>
    obtain ⟨rfl, -⟩ := hv
    exact .pure Ty.like_null
  | captured i =>
    obtain ⟨j, rfl, hij⟩ := id hv
    exact Parallel.get.bind fun m m' hP => .pure (hP.lower hv)

/-- Paired variables have alike upper bounds. -/
theorem upper_parallel (hs : s.Covers ρ) {v w : Var} (hv : ρ.var v w) :
    Parallel (Memory.Pairs s ρ) (Ty.Like ρ) (s.upper v) (s.upper w) := by
  cases v with
  | declared v =>
    obtain ⟨rfl, hv⟩ := hv
    exact .pure (hs.upper v hv)
  | captured i =>
    obtain ⟨j, rfl, hij⟩ := id hv
    exact Parallel.get.bind fun m m' hP => .pure (hP.upper hv)

section Comparisons

variable {P : Memory → Memory → Prop} {sub sub' : Ty → Ty → Query Bool}
  (hsub : ∀ {a a' b b' : Ty}, a.Like ρ a' → b.Like ρ b' → Parallel P (· = ·) (sub a b) (sub' a' b'))
  (hρ : ρ.Sharp)
include hsub hρ

/-- Equivalence is asked of alike types in parallel. -/
theorem equivalentBy_parallel (ha : a.Like ρ a') (hb : b.Like ρ b') :
    Parallel P (· = ·) (equivalentBy sub a b) (equivalentBy sub' a' b') := by
  refine .ite ?_ (fun _ => .pure rfl) fun _ => (hsub ha hb).both (hsub hb ha)
  rw [Ty.equal_of_like hρ ha hb]

/-- Containment is asked of alike arguments in parallel. -/
theorem containsBy_parallel {outer outer' inner inner' : Arg} (ho : outer.Like ρ outer')
    (hi : inner.Like ρ inner') :
    Parallel P (· = ·) (containsBy sub outer inner) (containsBy sub' outer' inner') := by
  cases outer with
  | type t =>
    obtain ⟨t', rfl, ht⟩ := Arg.like_type_iff.1 ho
    cases inner with
    | type x =>
      obtain ⟨x', rfl, hx⟩ := Arg.like_type_iff.1 hi
      exact equivalentBy_parallel hsub hρ hx ht
    | wild x y =>
      obtain ⟨x', y', rfl, -⟩ := Arg.like_wild_iff.1 hi
      exact .pure rfl
  | wild u l =>
    obtain ⟨u', l', rfl, hu, hl⟩ := Arg.like_wild_iff.1 ho
    cases inner with
    | type x =>
      obtain ⟨x', rfl, hx⟩ := Arg.like_type_iff.1 hi
      exact (hsub hl hx).both (hsub hx hu)
    | wild x y =>
      obtain ⟨x', y', rfl, hx, hy⟩ := Arg.like_wild_iff.1 hi
      exact (hsub hl hy).both (hsub hx hu)

/-- Containment is asked of alike lists of arguments in parallel. -/
theorem containsAllBy_parallel {outers outers' inners inners' : List Arg}
    (ho : List.Forall₂ (Arg.Like ρ) outers outers') (hi : List.Forall₂ (Arg.Like ρ) inners inners') :
    Parallel P (· = ·) (containsAllBy sub outers inners) (containsAllBy sub' outers' inners') := by
  induction ho generalizing inners inners' with
  | nil => cases hi <;> exact .pure rfl
  | cons ho _ ih =>
    cases hi with
    | nil => exact .pure rfl
    | cons hi his => exact (containsBy_parallel hsub hρ ho hi).both (ih his)

end Comparisons

/-- Alike types are told to be unlike together. -/
theorem unlike_of_like (ha : a.Like ρ a') (hb : b.Like ρ b') : unlike a' b' = unlike a b := by
  cases a <;> cases b <;> grind [Ty.Like, unlike]

/-- What is left to ask once the left side was seen as the declaration of the right side. -/
def fitsBy (sub : Ty → Ty → Query Bool) (as : List Arg) : Option Nominal → Query Bool
  | none => pure false
  | some n => if n.args.length = as.length then containsAllBy sub as n.args else pure false

/-- How applied declarations are compared, with the last part named. -/
theorem nominalBelowBy_fits (s : Setting) (sub : Ty → Ty → Query Bool) (a b : Nominal) :
    s.nominalBelowBy sub a b = (do
      if ← s.inherits a.decl b.decl then
        if b.args.isEmpty then pure true
        else if ← s.isRaw a then pure false
        else s.supertypeAs a b.decl >>= fitsBy sub b.args
      else pure false) := by
  unfold nominalBelowBy fitsBy
  rfl

variable (hρ : ρ.Exact) (hs : s.Covers ρ)
include hρ hs

section Nominals

variable {sub sub' : Ty → Ty → Query Bool} (hsub : ∀ {a a' b b' : Ty}, a.Like ρ a' → b.Like ρ b' →
  Parallel (Memory.Pairs s ρ) (· = ·) (sub a b) (sub' a' b'))
include hsub

omit hs in
/-- What is left to ask is asked in parallel. -/
theorem fitsBy_parallel {o o' : Option Nominal} (ho : Option.Rel (Nominal.Like ρ) o o')
    {as as' : List Arg} (has : List.Forall₂ (Arg.Like ρ) as as') :
    Parallel (Memory.Pairs s ρ) (· = ·) (fitsBy sub as o) (fitsBy sub' as' o') := by
  cases ho with
  | none => exact .pure rfl
  | some hn =>
    refine .ite (by rw [hn.args.length_eq, has.length_eq]) (fun _ => ?_) fun _ => .pure rfl
    exact containsAllBy_parallel hsub hρ.number has hn.args

/-- **Alike applied declarations are compared in parallel.** -/
theorem nominalBelowBy_parallel {a a' b b' : Nominal} (ha : a.Like ρ a') (hb : b.Like ρ b') :
    Parallel (Memory.Pairs s ρ) (· = ·) (s.nominalBelowBy sub a b) (s.nominalBelowBy sub' a' b') := by
  rw [nominalBelowBy_fits, nominalBelowBy_fits, ha.decl, hb.decl]
  refine (inherits_steady s a.decl b.decl).parallel.bind ?_
  rintro r _ ⟨rfl, -⟩
  refine .ite Iff.rfl (fun _ => ?_) fun _ => .pure rfl
  refine .ite ?_ (fun _ => .pure rfl) fun _ => (isRaw_parallel ha).bind ?_
  · rw [List.isEmpty_iff_length_eq_zero, List.isEmpty_iff_length_eq_zero, hb.args.length_eq]
  · rintro raw _ rfl
    refine .ite Iff.rfl (fun _ => .pure rfl) fun _ => ?_
    exact (supertypeAs_parallel hρ.number hs ha b.decl).bind fun o o' ho =>
      fitsBy_parallel hρ hsub ho hb.args

omit hs in
/-- Alike arrays are compared in parallel. -/
theorem arrayBelowBy_parallel (ha : a.Like ρ a') (hb : b.Like ρ b') :
    Parallel (Memory.Pairs s ρ) (· = ·) (arrayBelowBy sub a b) (arrayBelowBy sub' a' b') := by
  refine .ite ?_ (fun _ => .pure ?_) fun _ => hsub ha hb
  · rw [ha.isPrim_eq, hb.isPrim_eq]
  · rw [Bool.eq_iff_iff, beq_iff_eq, beq_iff_eq, Ty.eq_iff_of_like hρ ha hb]

end Nominals

section Within

variable {depth depth' : Nat} (ih : ∀ {trail trail' : Trail} {a a' b b' : Ty}, Trail.Like ρ trail trail' →
  a.Like ρ a' → b.Like ρ b' → Parallel (Memory.Pairs s ρ) (· = ·) (s.belowWithin depth trail a b)
    (s.belowWithin depth' trail' a' b'))
include ih

variable {trail trail' : Trail}

omit hs in
/-- Going down to lower bounds is done in parallel. -/
theorem descends_parallel (htrail : Trail.Like ρ trail trail') (ha : a.Like ρ a') (hb : b.Like ρ b') :
    Parallel (Memory.Pairs s ρ) (· = ·) (s.descends depth trail a b)
      (s.descends depth' trail' a' b') := by
  cases b with
  | var w =>
    obtain ⟨w', rfl, hw⟩ := Ty.like_var_iff.1 hb
    rw [descends, descends, htrail.contains_eq hw]
    refine .ite Iff.rfl (fun _ => .pure rfl) fun _ => (lower_parallel hw).bind fun t t' ht => ?_
    exact ih (htrail.cons hρ.number hw .lower) ha ht
  | prim p =>
    obtain rfl : b' = .prim p := by rwa [Ty.Like] at hb
    exact .pure rfl
  | null =>
    obtain rfl : b' = .null := by rwa [Ty.Like] at hb
    exact .pure rfl
  | nominal =>
    obtain ⟨_, _, rfl, -⟩ := Ty.like_nominal_iff.1 hb
    exact .pure rfl
  | array =>
    obtain ⟨_, rfl, -⟩ := Ty.like_array_iff.1 hb
    exact .pure rfl
  | inter =>
    obtain ⟨_, _, rfl, -⟩ := Ty.like_inter_iff.1 hb
    exact .pure rfl

/-- A type that is no intersection and no variable is compared with one that is no intersection. -/
theorem belowWithin_rigid_parallel (htrail : Trail.Like ρ trail trail') (ha : a.Like ρ a')
    (hb : b.Like ρ b') (hne : a ≠ b) (hnull : a ≠ .null) (hinter : a.isInter = false)
    (hvar : ∀ v, a ≠ .var v) (hbi : b.isInter = false) :
    Parallel (Memory.Pairs s ρ) (· = ·) (s.belowWithin (depth + 1) trail a b)
      (s.belowWithin (depth' + 1) trail' a' b') := by
  have hne' : a' ≠ b' := mt (Ty.eq_iff_of_like hρ ha hb).2 hne
  have hunlike := unlike_of_like ha hb
  cases h : unlike a b with
  | true =>
    rw [belowWithin_unlike hne h, belowWithin_unlike hne' (hunlike.trans h)]
    exact .pure rfl
  | false =>
  have hsub : ∀ {a a' b b' : Ty}, a.Like ρ a' → b.Like ρ b' → Parallel (Memory.Pairs s ρ) (· = ·)
      (s.belowWithin depth [] a b) (s.belowWithin depth' [] a' b') := ih .nil
  cases b with
  | inter => cases hbi
  | var w =>
    have hdown := descends_parallel hρ ih htrail ha hb
    obtain ⟨w', rfl, hw⟩ := Ty.like_var_iff.1 hb
    rw [belowWithin_to_var hnull hinter hvar, belowWithin_to_var]
    · exact hdown
    · rintro rfl
      cases a <;> grind [Ty.Like]
    · rw [← ha.isInter_eq, hinter]
    · rintro v rfl
      cases a <;> grind [Ty.Like]
  | nominal sb db ab =>
    obtain ⟨sb', ab', rfl, hn⟩ := Ty.like_nominal_iff.1 hb
    cases a with
    | nominal sa da aa =>
      obtain ⟨sa', aa', rfl, hm⟩ := Ty.like_nominal_iff.1 ha
      rw [belowWithin_nominal hne, belowWithin_nominal hne']
      exact nominalBelowBy_parallel hρ hs hsub hm hn
    | array e =>
      obtain ⟨e', rfl, -⟩ := Ty.like_array_iff.1 ha
      rw [belowWithin_array_nominal, belowWithin_array_nominal]
      refine .pure ?_
      rw [isArrayParent, isArrayParent, Bool.eq_iff_iff, Bool.and_eq_true, Bool.and_eq_true,
        List.isEmpty_iff_length_eq_zero, List.isEmpty_iff_length_eq_zero, hn.args.length_eq]
    | _ => simp_all [unlike, Ty.isInter]
  | array e =>
    obtain ⟨e', rfl, he⟩ := Ty.like_array_iff.1 hb
    cases a with
    | array x =>
      obtain ⟨x', rfl, hx⟩ := Ty.like_array_iff.1 ha
      rw [belowWithin_array (by simpa using hne), belowWithin_array (by simpa using hne')]
      exact arrayBelowBy_parallel hρ hsub hx he
    | _ => simp_all [unlike, Ty.isInter]
  | _ => cases a <;> simp_all [unlike, Ty.isInter]

/-- Going up from paired variables is done in parallel. -/
theorem belowWithin_var_parallel (htrail : Trail.Like ρ trail trail') {v w : Var} (hv : ρ.var v w)
    (hb : b.Like ρ b') (hne : .var v ≠ b) (hbi : b.isInter = false) :
    Parallel (Memory.Pairs s ρ) (· = ·) (s.belowWithin (depth + 1) trail (.var v) b)
      (s.belowWithin (depth' + 1) trail' (.var w) b') := by
  have hlike := Ty.like_var hv
  have hlower := descends_parallel hρ ih htrail hlike hb
  have hne' : Ty.var w ≠ b' := mt (Ty.eq_iff_of_like hρ hlike hb).2 hne
  rw [belowWithin_var hbi hne, belowWithin_var (hb.isInter_eq ▸ hbi) hne', htrail.contains_eq hv,
    Ty.equal_of_like hρ.number hlike hb]
  refine .ite Iff.rfl (fun _ => .pure rfl) fun _ => .ite Iff.rfl (fun _ => hlower) fun _ => ?_
  exact Parallel.either ((upper_parallel hs hv).bind fun t t' ht =>
    ih (htrail.cons hρ.number hv .upper) ht hb) hlower

end Within

/-- **Comparisons of alike types have the same answer**, nested to whatever depths. -/
theorem belowWithin_parallel (depth depth' : Nat) {trail trail' : Trail}
    (htrail : Trail.Like ρ trail trail') (ha : a.Like ρ a') (hb : b.Like ρ b') :
    Parallel (Memory.Pairs s ρ) (· = ·) (s.belowWithin depth trail a b)
      (s.belowWithin depth' trail' a' b') := by
  -- the cases are those of the comparison, in the order in which it looks at them
  induction depth generalizing depth' trail trail' a a' b b' with
  | zero => exact .throw_left
  | succ depth ih =>
  cases depth' with
  | zero => exact .throw_right
  | succ depth' =>
  have ih : ∀ {trail trail' : Trail} {a a' b b' : Ty}, Trail.Like ρ trail trail' → a.Like ρ a' →
      b.Like ρ b' → Parallel (Memory.Pairs s ρ) (· = ·) (s.belowWithin depth trail a b)
        (s.belowWithin depth' trail' a' b') := ih depth'
  have heq := Ty.eq_iff_of_like hρ ha hb
  by_cases hne : a = b
  · rw [hne, heq.1 hne, belowWithin_self, belowWithin_self]
    exact .pure rfl
  have hne' : a' ≠ b' := mt heq.2 hne
  by_cases hnull : a = .null
  · subst hnull
    obtain rfl : a' = .null := by rwa [Ty.Like] at ha
    rw [belowWithin_of_null, belowWithin_of_null]
    exact .pure rfl
  have hnull' : a' ≠ .null := by
    rintro rfl
    cases a <;> grind [Ty.Like]
  cases hbi : b.isInter with
  | true =>
    cases b with
    | inter st ms =>
      obtain ⟨st', ms', rfl, -, hms⟩ := Ty.like_inter_iff.1 hb
      rw [belowWithin_members hnull hne, belowWithin_members hnull' hne']
      exact .all (fun _ _ hm => ih htrail ha hm) hms
    | _ => cases hbi
  | false =>
  have hbi' : b'.isInter = false := hb.isInter_eq ▸ hbi
  cases a with
  | inter st ms =>
    have hdown := descends_parallel hρ ih htrail ha hb
    obtain ⟨st', ms', rfl, -, hms⟩ := Ty.like_inter_iff.1 ha
    cases hms with
    | nil =>
      rw [belowWithin_top hbi, belowWithin_top hbi']
      exact ih htrail Ty.like_object hb
    | cons hc hcs =>
      rw [belowWithin_inter hbi, belowWithin_inter hbi']
      exact Parallel.either (.any (fun _ _ hm => ih htrail hm hb) (.cons hc hcs)) hdown
  | var v =>
    obtain ⟨w, rfl, hv⟩ := Ty.like_var_iff.1 ha
    exact belowWithin_var_parallel hρ hs ih htrail hv hb hne hbi
  | _ => exact belowWithin_rigid_parallel hρ hs ih htrail ha hb hne hnull rfl (by simp) hbi

end Setting

end Generics
