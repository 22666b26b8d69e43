/-
# Inference under other names

An inference is followed through as comparisons are (`Query.Mirrors`): asked with other names for
variables, it takes the same turns, on constraints and unknowns with the other names. Unknowns are
looked up by key, and no two keys become one (`Problem.mentions_rename`), so a problem is advanced in
the same way (`Problem.advance_mirrors`), and by induction searches find the same with the same effort
(`searchWithin_mirrors`).
-/

import Generics.Proofs.Mirroring
import Generics.Proofs.Searches
import Generics.Inference.Diamond

namespace Generics

namespace Inference

open Query

section Definitions

variable (ρ : Renaming)

/-- The claim with other names. -/
def Claim.rename (c : Claim) : Claim := ⟨c.lhs.rename ρ, c.rel, c.rhs.rename ρ⟩

/-- The constraint with other names. -/
def Constraint.rename (c : Constraint) : Constraint :=
  { c.toClaim.rename ρ with origin := c.origin.map (Claim.rename ρ) }

/-- The unknown with other names. -/
def Unknown.rename (u : Unknown) : Unknown :=
  { u with
    var := u.var.rename ρ
    upper := u.upper.map (Constraint.rename ρ)
    equal := u.equal.map (Constraint.rename ρ)
    lower := u.lower.map (Constraint.rename ρ)
    solution := u.solution.map (Ty.rename ρ) }

/-- The problem with other names. -/
def Problem.rename (p : Problem) : Problem :=
  { p with
    unknowns := p.unknowns.map (Unknown.rename ρ)
    pending := p.pending.map (Constraint.rename ρ) }

end Definitions

section Equations

variable (ρ : Renaming)

/-- The left side of a renamed constraint is the left side, renamed. -/
@[simp] theorem Constraint.lhs_rename (c : Constraint) : (c.rename ρ).lhs = c.lhs.rename ρ := rfl

/-- Renaming changes no relation. -/
@[simp] theorem Constraint.rel_rename (c : Constraint) : (c.rename ρ).rel = c.rel := rfl

/-- The right side of a renamed constraint is the right side, renamed. -/
@[simp] theorem Constraint.rhs_rename (c : Constraint) : (c.rename ρ).rhs = c.rhs.rename ρ := rfl

/-- What a renamed constraint asks for is the renamed constraint. -/
theorem Constraint.rename_child (c : Constraint) (lhs : Ty) (rel : Relation) (rhs : Ty) :
    (c.child lhs rel rhs).rename ρ = (c.rename ρ).child (lhs.rename ρ) rel (rhs.rename ρ) := rfl

/-- The variable of a renamed unknown is the variable, renamed. -/
@[simp] theorem Unknown.var_rename (u : Unknown) : (u.rename ρ).var = u.var.rename ρ := rfl

/-- Renaming closes no unknown and opens none. -/
@[simp] theorem Unknown.closed_rename (u : Unknown) : (u.rename ρ).closed = u.closed := rfl

/-- Renaming solves no unknown. -/
@[simp] theorem Unknown.isSome_rename (u : Unknown) :
    (u.rename ρ).solution.isSome = u.solution.isSome := by simp [rename]

/-- Renaming makes no unknown ripe. -/
@[simp] theorem Unknown.isRipe_rename (u : Unknown) : (u.rename ρ).isRipe = u.isRipe := by
  simp [isRipe]

/-- Unknowns are told by renamed keys after renaming. -/
theorem Problem.isUnknown_rename (p : Problem) (key : VarKey) :
    (p.rename ρ).isUnknown (key.rename ρ) = p.isUnknown key := by
  simp [isUnknown, rename, Function.comp_def, TypeVar.key_rename, VarKey.beq_rename]

/-- A type is an unknown after renaming if it was one before. -/
@[simp] theorem Problem.unknown?_rename (p : Problem) (t : Ty) :
    (p.rename ρ).unknown? (t.rename ρ) = (p.unknown? t).map (VarKey.rename ρ) := by
  rw [unknown?, unknown?, Ty.typeVar?_rename]
  cases t.typeVar? with
  | none => rfl
  | some v =>
    simp only [Option.map_some, Option.filter_some, TypeVar.key_rename, p.isUnknown_rename]
    cases p.isUnknown v.key <;> rfl

/-- Which types mention unknowns stays so after renaming. -/
theorem Problem.mentions_rename (p : Problem) (t : Ty) :
    (p.rename ρ).mentions (t.rename ρ) = p.mentions t := by
  simp only [mentions, Ty.vars_rename, List.any_map, Function.comp_def, Problem.isUnknown_rename,
    Var.key_rename]

/-- More constraints are renamed with the problem. -/
theorem Problem.push_rename (p : Problem) (xs : List Constraint) :
    (p.push xs).rename ρ = (p.rename ρ).push (xs.map (Constraint.rename ρ)) := by
  simp [push, rename]

variable {ρ}

/-- The solutions of renamed unknowns are the renamed ones. -/
theorem Problem.solutionsWhere_rename {cond : Unknown → Bool}
    (hcond : ∀ u, cond (u.rename ρ) = cond u) (p : Problem) :
    (p.rename ρ).solutionsWhere cond = (p.solutionsWhere cond).rename ρ := by
  have hpairs : ((p.rename ρ).unknowns.filterMap fun u =>
      if cond u then u.solution.map (Var.declared u.var, ·) else none) =
      (p.unknowns.filterMap fun u =>
        if cond u then u.solution.map (Var.declared u.var, ·) else none).map
        fun e => (e.1.rename ρ, e.2.rename ρ) := by
    simp only [rename, List.filterMap_map, List.map_filterMap]
    refine List.filterMap_congr fun u _ => ?_
    rw [Function.comp_apply, hcond]
    split <;> simp [Unknown.rename, Function.comp_def]
  rw [solutionsWhere, hpairs]
  exact Subst.insertAll_rename _ {}

end Equations

/-- What becomes of a constraint, and the same with other names. -/
inductive Reduction.Renamed (ρ : Renaming) : Reduction → Reduction → Prop
  | filed (us : List Unknown) : Renamed ρ (.filed us) (.filed (us.map (Unknown.rename ρ)))
  | allOf (xs : List Constraint) : Renamed ρ (.allOf xs) (.allOf (xs.map (Constraint.rename ρ)))
  | oneOf (xs : List Constraint) : Renamed ρ (.oneOf xs) (.oneOf (xs.map (Constraint.rename ρ)))
  | refuted {g h : Failure} (hg : g.Alike h) : Renamed ρ (.refuted g) (.refuted h)

section Filing

variable {ρ : Renaming}

/-- Failures of constraints are alike. -/
theorem Constraint.failure_alike (x y : Constraint) : x.failure.Alike y.failure :=
  ⟨rfl, by simp [failure]⟩

/-- Filing a constraint corresponds to filing the renamed one. -/
theorem Unknown.file_corresponds (u : Unknown) (x : Constraint) :
    Corresponds (fun u₁ u₂ => u₂ = u₁.rename ρ) (u.file x) ((u.rename ρ).file (x.rename ρ)) := by
  unfold file
  rw [Constraint.rhs_rename, Constraint.rel_rename]
  simp only [Ty.rename_eq_null]
  split
  · split
    · exact .ok rfl
    · exact .error (x.failure_alike _)
  · cases x.rel <;> exact .ok (by simp [rename])

/-- Filing a constraint with one of the unknowns corresponds to filing the renamed one. -/
theorem Unknown.fileWith_corresponds (key : VarKey) (x : Constraint) (us : List Unknown) :
    Corresponds (fun us₁ us₂ => us₂ = us₁.map (Unknown.rename ρ)) (fileWith key x us)
      (fileWith (key.rename ρ) (x.rename ρ) (us.map (Unknown.rename ρ))) := by
  induction us with
  | nil => exact .ok rfl
  | cons u us ih =>
    rw [List.map_cons, fileWith, fileWith, Unknown.var_rename, TypeVar.key_rename]
    simp only [VarKey.rename_inj]
    split
    · exact (u.file_corresponds x).map fun _ _ h => by rw [h, List.map_cons]
    · exact ih.map fun _ _ h => by rw [h, List.map_cons]

/-- Filing a constraint in a problem goes along with renaming. -/
theorem Problem.file_renamed (p : Problem) (key : VarKey) (x : Constraint) :
    (p.file key x).Renamed ρ ((p.rename ρ).file (key.rename ρ) (x.rename ρ)) := by
  have hfile := Unknown.fileWith_corresponds (ρ := ρ) key x p.unknowns
  unfold file rename
  dsimp only
  generalize Unknown.fileWith key x p.unknowns = o at hfile ⊢
  generalize Unknown.fileWith (key.rename ρ) (x.rename ρ) (p.unknowns.map (Unknown.rename ρ)) = o' at hfile ⊢
  cases hfile with
  | ok h => exact h ▸ .filed _
  | error h => exact .refuted h

end Filing

namespace Constraint

section Reductions

variable {ρ : Renaming}

/-- What is asked of arguments goes along with renaming. -/
theorem matchArg_rename (x : Constraint) (a b : Arg) :
    (x.rename ρ).matchArg (a.rename ρ) (b.rename ρ) =
      (x.matchArg a b).map (List.map (Constraint.rename ρ)) := by
  cases a <;> cases b <;> simp [matchArg, rename_child]

/-- What is asked of lists of arguments goes along with renaming. -/
theorem matchArgs_rename (x : Constraint) : ∀ as bs : List Arg,
    (x.rename ρ).matchArgs (as.map (Arg.rename ρ)) (bs.map (Arg.rename ρ)) =
      (x.matchArgs as bs).map (List.map (Constraint.rename ρ))
  | [], _ => by simp [matchArgs]
  | _ :: _, [] => by simp [matchArgs]
  | a :: as, b :: bs => by
    rw [List.map_cons, List.map_cons, matchArgs, matchArgs, matchArg_rename, matchArgs_rename]
    cases x.matchArg a b <;> cases x.matchArgs as bs <;> simp

/-- Reducing arrays goes along with renaming. -/
theorem reduceArray_renamed (x : Constraint) (a b : Ty) :
    (x.reduceArray a b).Renamed ρ ((x.rename ρ).reduceArray (a.rename ρ) (b.rename ρ)) := by
  unfold reduceArray
  rw [Ty.isPrim_rename, Ty.isPrim_rename]
  simp only [Ty.rename_inj]
  split
  · split
    · exact .allOf []
    · exact .refuted (x.failure_alike _)
  · exact .allOf [x.child a .below b]

/-- Reducing an equality goes along with renaming. -/
theorem reduceEqual_renamed (x : Constraint) (a b : Ty) :
    (x.reduceEqual a b).Renamed ρ ((x.rename ρ).reduceEqual (a.rename ρ) (b.rename ρ)) := by
  have hboth : (x.bothWays a b).Renamed ρ ((x.rename ρ).bothWays (a.rename ρ) (b.rename ρ)) :=
    .allOf [x.child a .below b, x.child a .above b]
  cases a with
  | nominal sa da aa =>
    cases b with
    | nominal sb db ab =>
      rw [Ty.rename_nominal, Ty.rename_nominal] at hboth ⊢
      rw [reduceEqual, reduceEqual, List.length_map, List.length_map, Arg.any_isWild_rename,
        Arg.any_isWild_rename, Arg.types_rename, Arg.types_rename, List.zip_map, List.map_map]
      split
      · exact .refuted (x.failure_alike _)
      · split
        · exact hboth
        · have hall := Reduction.Renamed.allOf (ρ := ρ)
            (((aa.filterMap Arg.type?).zip (ab.filterMap Arg.type?)).map fun e =>
              x.child e.1 .equal e.2)
          rwa [List.map_map] at hall
    | _ => simpa [reduceEqual] using hboth
  | _ => simpa [reduceEqual] using hboth

end Reductions

section Queries

variable {s : Setting} {ρ : Renaming}

/-- Replacing unknowns in a constraint is mirrored. -/
theorem replace_mirrors (σ : Subst) (x : Constraint) :
    Mirrors ρ (fun y y' => y' = y.rename ρ) (x.replace σ)
      ((x.rename ρ).replace (σ.rename ρ)) := by
  refine (replace?_mirrors σ x.lhs).bind ?_
  rintro lhs _ rfl
  refine (replace?_mirrors σ x.rhs).bind ?_
  rintro rhs _ rfl
  cases lhs <;> cases rhs <;> exact .pure rfl

/-- Replacing unknowns in constraints is mirrored. -/
theorem replaceAll_mirrors (σ : Subst) (xs : List Constraint) :
    Mirrors ρ (fun ys ys' => ys' = ys.map (Constraint.rename ρ)) (replaceAll σ xs)
      (replaceAll (σ.rename ρ) (xs.map (Constraint.rename ρ))) := by
  induction xs with
  | nil => exact .pure rfl
  | cons x xs ih =>
    refine (replace_mirrors σ x).bind ?_
    rintro y _ rfl
    refine ih.bind ?_
    rintro ys _ rfl
    exact .pure rfl

/-- Reducing applied declarations is mirrored. -/
theorem reduceNominal_mirrors (x : Constraint) (a b : Nominal) :
    Mirrors ρ (Reduction.Renamed ρ) (x.reduceNominal s a b)
      ((x.rename ρ).reduceNominal (s.rename ρ) (a.rename ρ) (b.rename ρ)) := by
  have hrefuted : Mirrors ρ (Reduction.Renamed ρ) (pure (.refuted x.failure))
      (pure (.refuted (x.rename ρ).failure)) := .pure (.refuted (x.failure_alike _))
  refine (Setting.inherits_mirrors a.decl b.decl).bind ?_
  rintro r _ rfl
  refine .ite Iff.rfl (fun _ => ?_) fun _ => hrefuted
  refine .ite (by simp [Nominal.rename]) (fun _ => .pure (.allOf [])) fun _ =>
    (Setting.isRaw_mirrors a).bind ?_
  rintro raw _ rfl
  refine .ite Iff.rfl (fun _ => hrefuted) fun _ => (Setting.supertypeAs_mirrors a b.decl).bind ?_
  rintro o _ rfl
  cases o with
  | none => exact hrefuted
  | some n =>
    refine .ite (by simp [Nominal.rename]) (fun _ => ?_) fun _ => hrefuted
    have hargs := matchArgs_rename (ρ := ρ) x n.args b.args
    dsimp only [Nominal.rename]
    rw [hargs]
    cases x.matchArgs n.args b.args with
    | none => exact hrefuted
    | some xs => exact .pure (.allOf xs)

/-- On the right of another type a variable is replaced by its lower bound. -/
theorem reduceBelow_to_var (s : Setting) (x : Constraint) {a : Ty} (w : Var) (hnull : a ≠ .null)
    (hinter : a.isInter = false) (hvar : ∀ v, a ≠ .var v) : x.reduceBelow s a (.var w) =
      s.lower w >>= fun t => pure (.allOf [x.child a .below t]) := by
  cases a with
  | null => exact absurd rfl hnull
  | inter => cases hinter
  | var v => exact absurd rfl (hvar v)
  | _ => rfl

/-- An intersection is below a type that is none. -/
theorem reduceBelow_inter_mirrors (x : Constraint) (st : Site) (ms : List Ty) {b : Ty}
    (hb : b.isInter = false) :
    Mirrors ρ (Reduction.Renamed ρ) (x.reduceBelow s (.inter st ms) b)
      ((x.rename ρ).reduceBelow (s.rename ρ) ((Ty.inter st ms).rename ρ)
        (b.rename ρ)) := by
  cases ms with
  | nil =>
    have hobject := Reduction.Renamed.allOf (ρ := ρ) [x.child .object .below b]
    rw [List.map_singleton, rename_child, Ty.rename_object] at hobject
    cases b with
    | inter => cases hb
    | _ => simpa [reduceBelow] using Mirrors.pure hobject
  | cons t ms =>
    have hmembers := Reduction.Renamed.oneOf (ρ := ρ) ((t :: ms).map (x.child · .below b))
    cases b with
    | inter => cases hb
    | var w =>
      simp only [Ty.rename_var, Ty.rename_inter, List.map_cons, reduceBelow]
      refine (Setting.lower_mirrors s w).bind ?_
      rintro lower _ rfl
      have hall := Reduction.Renamed.oneOf (ρ := ρ)
        ((t :: ms).map (x.child · .below (.var w)) ++ [x.child (.inter st (t :: ms)) .below lower])
      refine .pure ?_
      simpa [rename_child, Function.comp_def] using hall
    | _ => simpa [reduceBelow, rename_child, Function.comp_def] using Mirrors.pure hmembers

/-- A variable is below a type that is no intersection. -/
theorem reduceBelow_var_mirrors (x : Constraint) (v : Var) {b : Ty} (hb : b.isInter = false) :
    Mirrors ρ (Reduction.Renamed ρ) (x.reduceBelow s (.var v) b)
      ((x.rename ρ).reduceBelow (s.rename ρ) ((Ty.var v).rename ρ)
        (b.rename ρ)) := by
  have hupper : Mirrors ρ (Reduction.Renamed ρ)
      (s.upper v >>= fun t => pure (.allOf [x.child t .below b]))
      ((s.rename ρ).upper (v.rename ρ) >>= fun t =>
        pure (.allOf [(x.rename ρ).child t .below (b.rename ρ)])) := by
    refine (Setting.upper_mirrors v).bind ?_
    rintro upper _ rfl
    exact .pure (.allOf [x.child upper .below b])
  cases b with
  | inter => cases hb
  | var w =>
    have hequal := Ty.equal_rename (ρ := ρ) (.var v) (.var w)
    rw [Ty.rename_var, Ty.rename_var] at hequal ⊢
    rw [reduceBelow, reduceBelow, hequal]
    refine .ite Iff.rfl (fun _ => .pure (.allOf [])) fun _ => (Setting.upper_mirrors v).bind ?_
    rintro upper _ rfl
    refine (Setting.lower_mirrors s w).bind ?_
    rintro lower _ rfl
    have hone := Reduction.Renamed.oneOf (ρ := ρ)
      [x.child upper .below (.var w), x.child (.var v) .below lower]
    refine .pure ?_
    simpa [rename_child] using hone
  | _ => simpa [reduceBelow] using hupper

/-- Reducing a constraint that one type is below another one is mirrored. -/
theorem reduceBelow_mirrors (x : Constraint) (a b : Ty) :
    Mirrors ρ (Reduction.Renamed ρ) (x.reduceBelow s a b)
      ((x.rename ρ).reduceBelow (s.rename ρ) (a.rename ρ) (b.rename ρ)) := by
  by_cases hnull : a = .null
  · rw [hnull, Ty.rename_null, reduceBelow, reduceBelow]
    exact .pure (.allOf [])
  cases hb : b.isInter with
  | true =>
    cases b with
    | inter st ms =>
      have hall := Reduction.Renamed.allOf (ρ := ρ) (ms.map (x.child a .below ·))
      cases a with
      | null => exact absurd rfl hnull
      | _ => simpa [reduceBelow, rename_child, Function.comp_def] using Mirrors.pure hall
    | _ => cases hb
  | false =>
  have hrefuted : Mirrors ρ (Reduction.Renamed ρ) (pure (.refuted x.failure))
      (pure (.refuted (x.rename ρ).failure)) := .pure (.refuted (x.failure_alike _))
  have hlower : ∀ w, a.isInter = false → (∀ v, a ≠ .var v) →
      Mirrors ρ (Reduction.Renamed ρ) (x.reduceBelow s a (.var w))
        ((x.rename ρ).reduceBelow (s.rename ρ) (a.rename ρ) ((Ty.var w).rename ρ)) := by
    intro w hinter hvar
    rw [Ty.rename_var, reduceBelow_to_var s x w hnull hinter hvar, reduceBelow_to_var]
    · refine (Setting.lower_mirrors s w).bind ?_
      rintro lower _ rfl
      exact .pure (.allOf [x.child a .below lower])
    · rwa [Ne, Ty.rename_eq_null]
    · rwa [Ty.isInter_rename]
    · cases a <;> simp at hvar ⊢
  cases a with
  | null => exact absurd rfl hnull
  | inter st ms => exact reduceBelow_inter_mirrors x st ms hb
  | var v => exact reduceBelow_var_mirrors x v hb
  | prim p =>
    cases b with
    | inter => cases hb
    | var w => exact hlower w rfl (by simp)
    | prim q =>
      simp only [Ty.rename_prim, reduceBelow]
      split
      · exact .pure (.allOf [])
      · exact hrefuted
    | _ => simpa [reduceBelow] using hrefuted
  | nominal sa da aa =>
    cases b with
    | inter => cases hb
    | var w => exact hlower w rfl (by simp)
    | nominal sb db ab =>
      rw [Ty.rename_nominal, Ty.rename_nominal, reduceBelow, reduceBelow]
      exact reduceNominal_mirrors x ⟨sa, da, aa⟩ ⟨sb, db, ab⟩
    | _ => simpa [reduceBelow] using hrefuted
  | array e =>
    cases b with
    | inter => cases hb
    | var w => exact hlower w rfl (by simp)
    | array e' =>
      rw [Ty.rename_array, Ty.rename_array, reduceBelow, reduceBelow]
      exact .pure (reduceArray_renamed x e e')
    | nominal sb db ab =>
      have hparent : (s.rename ρ).isArrayParent db (ab.map (Arg.rename ρ)) = s.isArrayParent db ab := by
        simp [Setting.isArrayParent, Setting.rename]
      rw [Ty.rename_array, Ty.rename_nominal, reduceBelow, reduceBelow, hparent]
      split
      · exact .pure (.allOf [])
      · exact hrefuted
    | _ => simpa [reduceBelow] using hrefuted

/-- Reducing a constraint without unknowns is mirrored. -/
theorem reduceRigid_mirrors (x : Constraint) :
    Mirrors ρ (Reduction.Renamed ρ) (x.reduceRigid s)
      ((x.rename ρ).reduceRigid (s.rename ρ)) := by
  unfold reduceRigid
  rw [rel_rename]
  cases x.rel with
  | below => exact reduceBelow_mirrors x x.lhs x.rhs
  | above => exact reduceBelow_mirrors x x.rhs x.lhs
  | equal => exact .pure (reduceEqual_renamed x x.lhs x.rhs)

end Queries

end Constraint

section Steps

variable {s : Setting} {ρ : Renaming}

/-- Handing on what is filed with an unknown is mirrored. -/
theorem Unknown.hand_mirrors (σ : Subst) (u : Unknown) :
    Mirrors ρ (fun r r' => r' = (r.1.rename ρ, r.2.map (Constraint.rename ρ)))
      (u.hand σ) ((u.rename ρ).hand (σ.rename ρ)) := by
  unfold hand
  rw [Unknown.closed_rename, Unknown.isSome_rename]
  refine .ite Iff.rfl (fun _ => .pure rfl) fun _ => (Constraint.replaceAll_mirrors σ u.upper).bind ?_
  rintro upper _ rfl
  refine (Constraint.replaceAll_mirrors σ u.equal).bind ?_
  rintro equal _ rfl
  refine (Constraint.replaceAll_mirrors σ u.lower).bind ?_
  rintro lower _ rfl
  exact .ite Iff.rfl (fun _ => .pure (by simp [rename])) fun _ => .pure rfl

/-- Handing on what is filed is mirrored. -/
theorem Unknown.handAll_mirrors (σ : Subst) (us : List Unknown) :
    Mirrors ρ (fun r r' => r' = (r.1.map (Unknown.rename ρ),
        r.2.map (Constraint.rename ρ)))
      (handAll σ us) (handAll (σ.rename ρ) (us.map (Unknown.rename ρ))) := by
  induction us with
  | nil => exact .pure rfl
  | cons u us ih =>
    refine (u.hand_mirrors σ).bind ?_
    rintro ⟨u', xs⟩ _ rfl
    refine ih.bind ?_
    rintro ⟨us', more⟩ _ rfl
    exact .pure (by simp)

/-- Handing on in a problem is mirrored. -/
theorem Problem.hand_mirrors (p : Problem) :
    Mirrors ρ (fun p₁ p₂ => p₂ = p₁.rename ρ) p.hand (p.rename ρ).hand := by
  unfold hand
  rw [p.solutionsWhere_rename fun u => u.isSome_rename _]
  refine (Unknown.handAll_mirrors _ p.unknowns).bind ?_
  rintro ⟨us, xs⟩ _ rfl
  exact .pure (by simp [rename])

/-- Promoting an unknown goes along with renaming. -/
theorem Unknown.promote_rename (ρ : Renaming) {mentions mentions' : Ty → Bool}
    (h : ∀ t : Ty, mentions' (t.rename ρ) = mentions t) (u : Unknown) :
    (u.rename ρ).promote mentions' = (u.promote mentions).rename ρ := by
  have hcond : ((fun x : Constraint => !mentions' x.rhs) ∘ Constraint.rename ρ) =
      fun x => !mentions x.rhs := funext fun x => by simp [h]
  unfold promote
  rw [Unknown.closed_rename, Unknown.isSome_rename]
  split
  · rfl
  · simp only [rename, List.find?_map, hcond, List.eraseP_map]
    cases u.equal.find? fun x => !mentions x.rhs <;> rfl

/-- Promoting goes along with renaming. -/
theorem Problem.promote_rename (ρ : Renaming) (p : Problem) :
    (p.rename ρ).promote = p.promote.rename ρ := by
  simp only [promote, rename, List.map_map]
  congr 1
  refine List.map_congr_left fun u _ => ?_
  exact u.promote_rename ρ (p.mentions_rename ρ)

/-- Whether a problem is ripe stays so after renaming. -/
theorem Problem.isRipe_rename (ρ : Renaming) (p : Problem) : (p.rename ρ).isRipe = p.isRipe := by
  simp [isRipe, rename, Function.comp_def]

/-- Settling is mirrored. -/
theorem Problem.settle_mirrors (n : Nat) (p : Problem) :
    Mirrors ρ (fun p₁ p₂ => p₂ = p₁.rename ρ) (settle n p)
      (settle n (p.rename ρ)) := by
  induction n generalizing p with
  | zero => exact .pure rfl
  | succ n ih =>
    rw [settle, settle, p.promote_rename]
    refine .ite (by rw [← isRipe, ← isRipe, isRipe_rename]) (fun _ => p.promote.hand_mirrors.bind ?_)
      fun _ => .pure rfl
    rintro p' _ rfl
    exact ih p'

/-- Reducing in a problem is mirrored. -/
theorem Problem.reduce_mirrors (p : Problem) (x : Constraint) :
    Mirrors ρ (Reduction.Renamed ρ) (p.reduce s x)
      ((p.rename ρ).reduce (s.rename ρ) (x.rename ρ)) := by
  unfold reduce
  rw [p.solutionsWhere_rename fun u => u.closed_rename _]
  refine (Constraint.replace_mirrors _ x).bind ?_
  rintro y _ rfl
  rw [Constraint.lhs_rename, Constraint.rhs_rename, unknown?_rename, unknown?_rename]
  cases p.unknown? y.lhs with
  | some key =>
    exact .ite (by rw [Ty.isInter_rename]) (fun _ => y.reduceRigid_mirrors) fun _ =>
      .pure (p.file_renamed key y)
  | none =>
    cases p.unknown? y.rhs with
    | some key =>
      exact .ite (by rw [Ty.isInter_rename]) (fun _ => y.reduceRigid_mirrors) fun _ =>
        .pure (p.file_renamed key y.flip)
    | none => exact y.reduceRigid_mirrors

/-- Looking for bounds that clash is mirrored. -/
theorem Unknown.clash?_mirrors (u : Unknown) :
    Mirrors ρ (fun o o' => o' = o.map (Constraint.rename ρ)) (u.clash? s)
      ((u.rename ρ).clash? (s.rename ρ)) := by
  have hpairs : ((u.rename ρ).lower.flatMap fun low =>
      (u.rename ρ).upper.map fun high => (low, high)) =
      (u.lower.flatMap fun low => u.upper.map fun high => (low, high)).map
        (Prod.map (Constraint.rename ρ) (Constraint.rename ρ)) := by
    simp [rename, List.flatMap_map, List.map_flatMap, Function.comp_def]
  unfold clash?
  dsimp only
  rw [hpairs]
  refine (Mirrors.first? (fun e => ?_) _).bind ?_
  · refine (Setting.below_mirrors e.1.rhs e.2.rhs).bind ?_
    rintro r _ rfl
    exact .pure rfl
  · rintro o _ rfl
    exact .pure (by cases o <;> rfl)

/-- Whether an unknown admits a type stays so after renaming. -/
theorem Unknown.admits_mirrors (u : Unknown) (t : Ty) : Mirrors ρ (· = ·) (u.admits s t)
    ((u.rename ρ).admits (s.rename ρ) (t.rename ρ)) :=
  .both (.all (g := Constraint.rename ρ) (fun x => Setting.below_mirrors t x.rhs) u.upper)
    (.all (g := Constraint.rename ρ) (fun x => Setting.below_mirrors x.rhs t) u.lower)

variable {mentions mentions' : Ty → Bool}
  (hmentions : ∀ t : Ty, mentions' (t.rename ρ) = mentions t)
include hmentions

/-- Which unknowns have clear bounds stays so after renaming. -/
theorem Unknown.hasClearBounds_rename (u : Unknown) :
    (u.rename ρ).hasClearBounds mentions' = u.hasClearBounds mentions := by
  have hnone : (u.rename ρ).solution.isNone = u.solution.isNone := by simp [rename]
  simp only [hasClearBounds, hnone, Unknown.closed_rename]
  simp only [rename, ← List.map_append, List.isEmpty_map, List.all_map, Function.comp_def,
    Constraint.rhs_rename, hmentions]

/-- Picking a bound is mirrored. -/
theorem Unknown.pick_mirrors (u : Unknown) :
    Mirrors ρ (Corresponds fun u₁ u₂ => u₂ = u₁.rename ρ) (u.pick s mentions)
      ((u.rename ρ).pick (s.rename ρ) mentions') := by
  unfold pick
  rw [u.hasClearBounds_rename hmentions]
  refine .ite Iff.rfl (fun _ => u.clash?_mirrors.bind ?_) fun _ => .pure (.ok rfl)
  rintro o _ rfl
  cases o with
  | some x => exact .pure (.error (x.failure_alike _))
  | none =>
    have hfirst : Mirrors ρ (fun o o' => o' = o.map (Constraint.rename ρ))
        (first? (fun x => u.admits s x.rhs) (u.lower ++ u.upper))
        (first? (fun x => (u.rename ρ).admits (s.rename ρ) x.rhs)
          ((u.lower ++ u.upper).map (Constraint.rename ρ))) :=
      .first? (g := Constraint.rename ρ) (fun x => u.admits_mirrors x.rhs) _
    rw [List.map_append] at hfirst
    refine hfirst.bind ?_
    rintro o _ rfl
    cases o with
    | some x => exact .pure (.ok rfl)
    | none => exact .pure (.ok rfl)

/-- Picking bounds is mirrored. -/
theorem Unknown.pickAll_mirrors (us : List Unknown) :
    Mirrors ρ (Corresponds fun us₁ us₂ => us₂ = us₁.map (Unknown.rename ρ))
      (pickAll s mentions us) (pickAll (s.rename ρ) mentions' (us.map (Unknown.rename ρ))) := by
  induction us with
  | nil => exact .pure (.ok rfl)
  | cons u us ih =>
    refine (u.pick_mirrors hmentions).bind ?_
    rintro o o' ho
    cases ho with
    | error hf => exact .pure (.error hf)
    | ok h =>
      refine ih.bind ?_
      rintro r r' hr
      exact .pure (hr.map fun _ _ h' => by rw [h, h', List.map_cons])

omit hmentions in
/-- Picking in a problem is mirrored. -/
theorem Problem.pick_mirrors (p : Problem) :
    Mirrors ρ (Corresponds fun p₁ p₂ => p₂ = p₁.rename ρ) (p.pick s)
      ((p.rename ρ).pick (s.rename ρ)) := by
  refine (Unknown.pickAll_mirrors (p.mentions_rename _) p.unknowns).bind ?_
  rintro r r' hr
  exact .pure (hr.map fun _ _ h => by rw [h]; rfl)

end Steps

/-! ## Searches -/

/-- The outcome of a search, and one with other names. -/
structure Outcome.Renamed (ρ : Renaming) (o o' : Outcome) : Prop where
  solutions : o'.solutions = o.solutions.map (List.map (Ty.rename ρ))
  ambiguous : o'.ambiguous = o.ambiguous
  failure : Option.Rel Failure.Alike o.failure o'.failure

/-- A problem is advanced, and the same with other names. -/
inductive Progress.Renamed (ρ : Renaming) : Progress → Progress → Prop
  | further (p : Problem) : Renamed ρ (.further p) (.further (p.rename ρ))
  | fork (ps : List Problem) : Renamed ρ (.fork ps) (.fork (ps.map (Problem.rename ρ)))
  | done {o o' : Outcome} (h : o.Renamed ρ o') : Renamed ρ (.done o) (.done o')

namespace Outcome.Renamed

variable {ρ : Renaming} {o o' b b' : Outcome}

/-- Outcomes without solutions are renamed if their failures are alike. -/
theorem of_failure {g h : Failure} (hg : g.Alike h) :
    Renamed ρ { failure := some g } { failure := some h } :=
  ⟨rfl, rfl, .some hg⟩

/-- After renaming there are solutions if there were before. -/
theorem isSome (h : o.Renamed ρ o') : o'.solutions.isSome = o.solutions.isSome := by
  rw [h.solutions, Option.isSome_map]

/-- After renaming an outcome is a runaway if it was before. -/
theorem isRunaway (h : o.Renamed ρ o') : o'.isRunaway = o.isRunaway := by
  obtain ⟨-, -, hfailure⟩ := h
  unfold Outcome.isRunaway
  generalize o.failure = g, o'.failure = g' at hfailure ⊢
  cases hfailure with
  | none => rfl
  | some hg => rw [Option.bind_some, Option.bind_some, hg.kind]

/-- The failures of renamed outcomes are alike. -/
theorem toList (h : o.Renamed ρ o') :
    List.Forall₂ Failure.Alike o.failure.toList o'.failure.toList := by
  obtain ⟨-, -, hfailure⟩ := h
  generalize o.failure = g, o'.failure = g' at hfailure ⊢
  cases hfailure with
  | none => exact .nil
  | some hg => exact .cons hg .nil

/-- After renaming an outcome is settled if it was before. -/
theorem isSettled (h : o.Renamed ρ o') : o'.isSettled = o.isSettled := by
  rw [Outcome.isSettled, h.isSome, h.ambiguous, Outcome.isSettled]

/-- Merging goes along with renaming. -/
theorem merge (h : o.Renamed ρ o') (hb : b.Renamed ρ b') :
    (o.merge b).Renamed ρ (o'.merge b') := by
  refine ⟨?_, ?_, .none⟩
  · simp only [Outcome.merge, h.isSome]
    split
    · exact h.solutions
    · exact hb.solutions
  · simp only [Outcome.merge, h.isSome, hb.isSome, h.ambiguous, hb.ambiguous]

/-- What is blamed for alike failures is alike. -/
theorem blame_alike {gs hs : List Failure} (h : List.Forall₂ Failure.Alike gs hs) :
    (blame gs).Alike (blame hs) := by
  have hfind : Option.Rel Failure.Alike (gs.find? fun g => g.kind? == some Failure.Kind.incomplete)
      (hs.find? fun g => g.kind? == some Failure.Kind.incomplete) := by
    induction h with
    | nil => exact .none
    | cons hg h ih =>
      rw [List.find?_cons, List.find?_cons, hg.kind]
      split
      · exact .some hg
      · exact ih
  unfold blame
  generalize gs.find? _ = g, hs.find? _ = g' at hfind ⊢
  cases hfind with
  | some hg => exact hg
  | none =>
    cases h with
    | nil => exact ⟨rfl, Iff.rfl⟩
    | cons hg h => exact hg

/-- Closing for alike failures goes along with renaming. -/
theorem close (h : o.Renamed ρ o') {gs hs : List Failure} (hg : List.Forall₂ Failure.Alike gs hs) :
    (o.close gs).Renamed ρ (o'.close hs) := by
  unfold Outcome.close
  rw [h.isSome]
  split
  · exact h
  · exact ⟨h.solutions, h.ambiguous, .some (blame_alike hg)⟩

end Outcome.Renamed

/-- The outcome of a renamed problem is the renamed one. -/
theorem Problem.outcome_renamed (ρ : Renaming) (p : Problem) :
    p.outcome.Renamed ρ (p.rename ρ).outcome := by
  have hunsolved : (p.rename ρ).unknowns.filter (fun u => u.solution.isNone) =
      (p.unknowns.filter fun u => u.solution.isNone).map (Unknown.rename ρ) := by
    simp [rename, Unknown.rename, List.filter_map, Function.comp_def]
  have hsolved : (p.rename ρ).unknowns.filterMap Unknown.solution =
      (p.unknowns.filterMap Unknown.solution).map (Ty.rename ρ) := by
    simp [rename, Unknown.rename, List.filterMap_map, List.map_filterMap, Function.comp_def]
  unfold outcome
  dsimp only
  rw [hunsolved, List.isEmpty_map]
  split
  · exact ⟨by rw [hsolved]; rfl, rfl, .none⟩
  · exact ⟨rfl, rfl, .some ⟨rfl, by simp⟩⟩

section Searching

variable {s : Setting} {ρ : Renaming}

/-- The outcomes agree up to the numbers, and the efforts are the same. -/
def Found (ρ : Renaming) (r r' : Outcome × Effort) : Prop := r.1.Renamed ρ r'.1 ∧ r.2 = r'.2

/-- Searching branches is mirrored if searching each one is. -/
theorem searchBranches_mirrors {exhaustive : Bool}
    {search search' : Problem → Effort → Query (Outcome × Effort)}
    (hsearch : ∀ p effort, Mirrors ρ (Found ρ) (search p effort)
      (search' (p.rename ρ) effort)) (ps : List Problem) {o o' : Outcome}
    (ho : o.Renamed ρ o') {gs hs : List Failure} (hg : List.Forall₂ Failure.Alike gs hs)
    (effort : Effort) :
    Mirrors ρ (Found ρ) (searchBranches exhaustive search ps o gs effort)
      (searchBranches exhaustive search' (ps.map (Problem.rename ρ)) o' hs effort) := by
  induction ps generalizing o o' gs hs effort with
  | nil => exact .pure ⟨ho.close hg, rfl⟩
  | cons p ps ih =>
    refine (hsearch p effort).bind ?_
    rintro ⟨b, effort₁⟩ ⟨b', _⟩ ⟨hb, rfl⟩
    have hmerge := ho.merge hb
    have hfailures : List.Forall₂ Failure.Alike
        (if b.solutions.isSome then gs else gs ++ b.failure.toList)
        (if b'.solutions.isSome then hs else hs ++ b'.failure.toList) := by
      rw [hb.isSome]
      split
      · exact hg
      · exact List.rel_append hg hb.toList
    dsimp only
    refine .ite (by rw [hb.isRunaway])
      (fun _ => .pure ⟨⟨ho.solutions, ho.ambiguous, hb.failure⟩, rfl⟩) fun _ => ?_
    refine .ite (by rw [hmerge.isSettled]) (fun _ => .pure ⟨hmerge.close hfailures, rfl⟩) fun _ => ?_
    exact ih hmerge hfailures effort₁

/-- Advancing by a constraint is mirrored. -/
theorem Problem.advanceBy_mirrors (p : Problem) (x : Constraint) (rest : List Constraint) :
    Mirrors ρ (Progress.Renamed ρ) (p.advanceBy s x rest)
      ((p.rename ρ).advanceBy (s.rename ρ) (x.rename ρ)
        (rest.map (Constraint.rename ρ))) := by
  refine (reduce_mirrors { p with pending := rest } x).bind ?_
  rintro r r' hr
  cases hr with
  | filed us => exact .pure (.further { p with pending := rest, unknowns := us })
  | allOf xs =>
    have hpush := Progress.Renamed.further (ρ := ρ) (push { p with pending := rest } xs)
    rw [push_rename] at hpush
    exact .pure hpush
  | oneOf xs =>
    have hfork := Progress.Renamed.fork (ρ := ρ)
      (xs.map fun x => { push { p with pending := rest } [x] with picked := false })
    refine .pure ?_
    simpa [push, rename, Function.comp_def] using hfork
  | refuted hg => exact .pure (.done (.of_failure hg))

/-- Advancing a settled problem is mirrored. -/
theorem Problem.advanceSettled_mirrors (p : Problem) :
    Mirrors ρ (Progress.Renamed ρ) (p.advanceSettled s)
      ((p.rename ρ).advanceSettled (s.rename ρ)) := by
  have hlength : (p.rename ρ).unknowns.length = p.unknowns.length := by simp [rename]
  unfold advanceSettled
  rw [hlength]
  refine (p.settle_mirrors _).bind ?_
  rintro p₁ _ rfl
  refine .ite (by simp [rename]) (fun _ => p₁.pick_mirrors.bind ?_) fun _ => .pure (.further p₁)
  rintro r r' hr
  cases hr with
  | error hg => exact .pure (.done (.of_failure hg))
  | @ok p₂ p₂' h =>
    subst h
    exact .ite (by rw [isRipe_rename]) (fun _ => .pure (.further { p₂ with picked := true }))
      fun _ => .pure (.done (p₂.outcome_renamed _))

/-- Advancing is mirrored. -/
theorem Problem.advance_mirrors (p : Problem) :
    Mirrors ρ (Progress.Renamed ρ) (p.advance s) ((p.rename ρ).advance (s.rename ρ)) := by
  have hpending : (p.rename ρ).pending =
      p.pending.map (Constraint.rename ρ) := rfl
  unfold advance
  rw [hpending]
  cases p.pending with
  | nil => exact p.advanceSettled_mirrors
  | cons x rest => exact p.advanceBy_mirrors x rest

/-- Searching is mirrored, within any number of advances. -/
theorem searchWithin_mirrors (n : Nat) (p : Problem) (effort : Effort) :
    Mirrors ρ (Found ρ) (searchWithin s n p effort)
      (searchWithin (s.rename ρ) n (p.rename ρ) effort) := by
  have hspend : ∀ (p : Problem) effort, (p.rename ρ).spend effort = p.spend effort :=
    fun p effort => by simp [Problem.spend, Problem.rename]
  induction n generalizing p effort with
  | zero => exact .throw ⟨rfl, Iff.rfl⟩
  | succ n ih =>
    -- the effort is the same, so both run away or neither does
    rw [searchWithin_succ, searchWithin_succ, hspend]
    refine .ite Iff.rfl (fun _ => .pure ⟨.of_failure ⟨rfl, by simp⟩, rfl⟩) fun _ =>
      p.advance_mirrors.bind ?_
    rintro r r' hr
    cases hr with
    | done h => exact .pure ⟨h, rfl⟩
    | further p' => exact ih p' _
    | fork ps =>
      dsimp only
      rw [List.length_map]
      exact searchBranches_mirrors ih ps ⟨rfl, rfl, .none⟩ .nil _

/-- A search is mirrored. -/
theorem search_mirrors (p : Problem) :
    Mirrors ρ (Found ρ) (search s p) (search (s.rename ρ) (p.rename ρ)) := by
  have hsteps : advancesAtMost (s.rename ρ) (p.rename ρ) = advancesAtMost s p := by
    simp [advancesAtMost, Problem.rename, Setting.rename]
  unfold search
  rw [hsteps]
  exact searchWithin_mirrors _ p {}

/-- A problem that starts with renamed variables is the renamed one. -/
theorem Problem.start_rename (vars : List TypeVar) :
    (Problem.start s vars).rename ρ = Problem.start (s.rename ρ) (vars.map (TypeVar.rename ρ)) := by
  simp [start, rename, Unknown.rename, Constraint.rename, Claim.rename, List.map_flatMap,
    List.flatMap_map, Setting.rename, Catalog.upper_rename, Function.comp_def]

/-- Applying a declaration to its own parameters is mirrored. -/
theorem generic_mirrors (decl : String) (params : List TypeVar) :
    Mirrors ρ (fun n n' => n' = n.rename ρ) (generic decl params)
      (generic decl (params.map (TypeVar.rename ρ))) := by
  have hbuild := build_mirrors (ρ := ρ) decl
    (params.map fun v => .type (.var (.declared v)))
  simpa [generic, Function.comp_def] using hbuild

end Searching

/-- The inference with other names. -/
def Inferred.rename (ρ : Renaming) (r : Inferred) : Inferred :=
  { r with target := r.target.rename ρ, result := r.result.rename ρ }

/-- An inference is mirrored. -/
theorem infer_mirrors {s : Setting} {ρ : Renaming} (target : Ty) (decl : String) :
    Mirrors ρ (fun r r' => r' = r.rename ρ) (infer s target decl)
      (infer (s.rename ρ) (target.rename ρ) decl) := by
  refine (Setting.params_mirrors decl).bind ?_
  rintro params _ rfl
  refine (generic_mirrors decl params).bind ?_
  rintro seed _ rfl
  have hsearch := search_mirrors (s := s) (ρ := ρ) ((Problem.start s params).push
    [{ lhs := seed.toTy, rel := .below, rhs := target }])
  rw [Problem.push_rename, Problem.start_rename] at hsearch
  rw [Nominal.toTy_rename]
  refine hsearch.bind ?_
  rintro ⟨o, effort⟩ ⟨o', _⟩ ⟨ho, rfl⟩
  dsimp only
  obtain ⟨hsolutions, hambiguous, hfailure⟩ := ho
  rw [hsolutions, hambiguous]
  cases o.solutions with
  | some types =>
    have hbuild := build_mirrors (ρ := ρ) decl (types.map .type)
    refine Mirrors.bind (by simpa [Function.comp_def] using hbuild) ?_
    rintro result _ rfl
    exact .pure rfl
  | none =>
    refine .throw ?_
    generalize o.failure = g, o'.failure = g' at hfailure ⊢
    cases hfailure with
    | none => exact ⟨rfl, Iff.rfl⟩
    | some hg => exact hg

end Inference
end Generics
