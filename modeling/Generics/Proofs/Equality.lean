/-
# What equality sees

Two types have the same structure if they are built in the same way from the same declarations,
primitives and variables, where a declared variable is known by its declaration and its name, whatever
its bound is (`Ty.SameStructure`). Equality compares fingerprints before it looks at the structure, and it
may do so again at every part (`Ty.equalByParts`). Neither shortcut is seen from outside: types of the same
structure have the same fingerprint, so that equality decides the structure and nothing else.

What takes the place of variables cannot tell equal types apart either. Substitution leaves alone what
does not change, and takes an intersection apart only if it changed; for flat types this gives the structure
of the plain rebuild (`Ty.sameShape_subst`), and rebuilding respects the structure
(`Ty.sameShape_rebuild`). The main result is `equality_coherent`.
-/

import Generics.Proofs.Reflexivity
import Generics.Proofs.Views

namespace Generics

mutual
/-- Two types have the same structure. -/
inductive Ty.SameStructure : Ty → Ty → Prop
  | prim (p : Primitive) : Ty.SameStructure (.prim p) (.prim p)
  | null : Ty.SameStructure .null .null
  /-- The same declaration, and arguments of the same structure in order. -/
  | nominal (site site' : Site) (decl : String) {as bs : List Arg} :
    List.Forall₂ Arg.SameStructure as bs →
      Ty.SameStructure (.nominal site decl as) (.nominal site' decl bs)
  | array {a b : Ty} : Ty.SameStructure a b → Ty.SameStructure (.array a) (.array b)
  /-- Members of the same structure in order. -/
  | inter (site site' : Site) {as bs : List Ty} :
    List.Forall₂ Ty.SameStructure as bs → Ty.SameStructure (.inter site as) (.inter site' bs)
  /-- The same declaration and name; the bounds may be found anywhere. -/
  | declared (decl name : String) (slot slot' : Slot) :
    Ty.SameStructure (.var (.declared ⟨decl, name, slot⟩)) (.var (.declared ⟨decl, name, slot'⟩))
  | captured (id : Nat) : Ty.SameStructure (.var (.captured id)) (.var (.captured id))

/-- Two arguments have the same structure. -/
inductive Arg.SameStructure : Arg → Arg → Prop
  | type {a b : Ty} : Ty.SameStructure a b → Arg.SameStructure (.type a) (.type b)
  | wild {u u' l l' : Ty} : Ty.SameStructure u u' → Ty.SameStructure l l' →
    Arg.SameStructure (.wild u l) (.wild u' l')
end

/-- Variables of one key have the same structure, and no others. -/
theorem Ty.sameStructure_var {v w : Var} :
    Ty.SameStructure (.var v) (.var w) ↔ v.key = w.key := by
  constructor
  · intro h
    cases h <;> rfl
  · intro h
    match v, w, h with
    | .declared ⟨decl, name, slot⟩, .declared ⟨_, _, slot'⟩, h =>
      injection h with hdecl hname
      subst hdecl hname
      exact .declared decl name slot slot'
    | .captured i, .captured _, h =>
      injection h with h
      subst h
      exact .captured i

mutual
/-- **Comparing shapes decides whether the structure is the same.** -/
theorem Ty.sameShape_iff : ∀ {a b : Ty}, a.sameShape b = true ↔ a.SameStructure b
  | .prim p, b => by
    refine ⟨fun h => ?_, fun h => ?_⟩
    · obtain rfl := Ty.eq_of_sameShape_prim h
      exact .prim p
    · cases h
      exact Ty.sameShape_refl _
  | .null, b => by
    refine ⟨fun h => ?_, fun h => ?_⟩
    · obtain rfl := Ty.eq_of_sameShape_null h
      exact .null
    · cases h
      exact Ty.sameShape_refl _
  | .nominal st d as, b => by
    refine ⟨fun h => ?_, fun h => ?_⟩
    · obtain ⟨st', bs, rfl, hargs⟩ := Ty.eq_of_sameShape_nominal h
      exact .nominal st st' d (Arg.sameShapeAll_iff.1 hargs)
    · cases h with
      | nominal _ st' _ hargs =>
        rw [Ty.sameShape, beq_self_eq_true, Arg.sameShapeAll_iff.2 hargs, Bool.and_self]
  | .array e, b => by
    refine ⟨fun h => ?_, fun h => ?_⟩
    · obtain ⟨e', rfl, helem⟩ := Ty.eq_of_sameShape_array h
      exact .array (Ty.sameShape_iff.1 helem)
    · cases h with
      | array helem => rw [Ty.sameShape, Ty.sameShape_iff.2 helem]
  | .inter st ms, b => by
    refine ⟨fun h => ?_, fun h => ?_⟩
    · obtain ⟨st', ns, rfl, hmembers⟩ := Ty.eq_of_sameShape_inter h
      exact .inter st st' (Ty.sameShapeAll_iff.1 hmembers)
    · cases h with
      | inter _ st' hmembers => rw [Ty.sameShape, Ty.sameShapeAll_iff.2 hmembers]
  | .var v, b => by
    refine ⟨fun h => ?_, fun h => ?_⟩
    · obtain ⟨w, rfl, hkey⟩ := Ty.eq_of_sameShape_var h
      exact Ty.sameStructure_var.2 hkey
    · have hvar : ∃ w, b = .var w := by cases h <;> exact ⟨_, rfl⟩
      obtain ⟨w, rfl⟩ := hvar
      rw [Ty.sameShape, Ty.sameStructure_var.1 h, beq_self_eq_true]
termination_by structural a => a

/-- Arguments have the same shape exactly if they have the same structure. -/
theorem Arg.sameShape_iff : ∀ {a b : Arg}, a.sameShape b = true ↔ a.SameStructure b
  | .type t, b => by
    refine ⟨fun h => ?_, fun h => ?_⟩
    · obtain ⟨t', rfl, htype⟩ := Arg.eq_of_sameShape_type h
      exact .type (Ty.sameShape_iff.1 htype)
    · cases h with
      | type htype => rw [Arg.sameShape, Ty.sameShape_iff.2 htype]
  | .wild u l, b => by
    refine ⟨fun h => ?_, fun h => ?_⟩
    · obtain ⟨u', l', rfl, hu, hl⟩ := Arg.eq_of_sameShape_wild h
      exact .wild (Ty.sameShape_iff.1 hu) (Ty.sameShape_iff.1 hl)
    · cases h with
      | wild hu hl => rw [Arg.sameShape, Ty.sameShape_iff.2 hu, Ty.sameShape_iff.2 hl, Bool.and_self]
termination_by structural a => a

/-- Types have the same shapes exactly if they have the same structure one by one. -/
theorem Ty.sameShapeAll_iff :
    ∀ {as bs : List Ty}, Ty.sameShapeAll as bs = true ↔ List.Forall₂ Ty.SameStructure as bs
  | [], bs => by cases bs <;> simp [Ty.sameShapeAll]
  | a :: as, bs => by
    cases bs with
    | nil => simp [Ty.sameShapeAll]
    | cons b bs =>
      rw [Ty.sameShapeAll, Bool.and_eq_true, Ty.sameShape_iff, Ty.sameShapeAll_iff, List.forall₂_cons]
termination_by structural as => as

/-- Lists of arguments have the same shapes exactly if they have the same structure one by one. -/
theorem Arg.sameShapeAll_iff :
    ∀ {as bs : List Arg}, Arg.sameShapeAll as bs = true ↔ List.Forall₂ Arg.SameStructure as bs
  | [], bs => by cases bs <;> simp [Arg.sameShapeAll]
  | a :: as, bs => by
    cases bs with
    | nil => simp [Arg.sameShapeAll]
    | cons b bs =>
      rw [Arg.sameShapeAll, Bool.and_eq_true, Arg.sameShape_iff, Arg.sameShapeAll_iff,
        List.forall₂_cons]
termination_by structural as => as
end

mutual
/-- Having the same shape is transitive. -/
theorem Ty.sameShape_trans :
    ∀ {a b c : Ty}, a.sameShape b = true → b.sameShape c = true → a.sameShape c = true
  | .prim p, _, _, h, h' => by
    obtain rfl := Ty.eq_of_sameShape_prim h
    exact h'
  | .null, _, _, h, h' => by
    obtain rfl := Ty.eq_of_sameShape_null h
    exact h'
  | .nominal st d as, _, _, h, h' => by
    obtain ⟨_, bs, rfl, hargs⟩ := Ty.eq_of_sameShape_nominal h
    obtain ⟨_, cs, rfl, hargs'⟩ := Ty.eq_of_sameShape_nominal h'
    rw [Ty.sameShape, beq_self_eq_true, Arg.sameShapeAll_trans hargs hargs', Bool.and_self]
  | .array e, _, _, h, h' => by
    obtain ⟨_, rfl, helem⟩ := Ty.eq_of_sameShape_array h
    obtain ⟨_, rfl, helem'⟩ := Ty.eq_of_sameShape_array h'
    rw [Ty.sameShape, Ty.sameShape_trans helem helem']
  | .inter st ms, _, _, h, h' => by
    obtain ⟨_, _, rfl, hmembers⟩ := Ty.eq_of_sameShape_inter h
    obtain ⟨_, _, rfl, hmembers'⟩ := Ty.eq_of_sameShape_inter h'
    rw [Ty.sameShape, Ty.sameShapeAll_trans hmembers hmembers']
  | .var v, _, _, h, h' => by
    obtain ⟨w, rfl, hkey⟩ := Ty.eq_of_sameShape_var h
    obtain ⟨x, rfl, hkey'⟩ := Ty.eq_of_sameShape_var h'
    rw [Ty.sameShape, hkey, hkey', beq_self_eq_true]
termination_by structural a => a

/-- Having the same shape is transitive for arguments. -/
theorem Arg.sameShape_trans :
    ∀ {a b c : Arg}, a.sameShape b = true → b.sameShape c = true → a.sameShape c = true
  | .type t, _, _, h, h' => by
    obtain ⟨_, rfl, htype⟩ := Arg.eq_of_sameShape_type h
    obtain ⟨_, rfl, htype'⟩ := Arg.eq_of_sameShape_type h'
    rw [Arg.sameShape, Ty.sameShape_trans htype htype']
  | .wild u l, _, _, h, h' => by
    obtain ⟨_, _, rfl, hu, hl⟩ := Arg.eq_of_sameShape_wild h
    obtain ⟨_, _, rfl, hu', hl'⟩ := Arg.eq_of_sameShape_wild h'
    rw [Arg.sameShape, Ty.sameShape_trans hu hu', Ty.sameShape_trans hl hl', Bool.and_self]
termination_by structural a => a

/-- Having the same shapes is transitive. -/
theorem Ty.sameShapeAll_trans : ∀ {as bs cs : List Ty}, Ty.sameShapeAll as bs = true →
    Ty.sameShapeAll bs cs = true → Ty.sameShapeAll as cs = true
  | [], _, _, h, h' => by
    obtain rfl := Ty.eq_of_sameShape_nil h
    exact h'
  | a :: as, _, _, h, h' => by
    obtain ⟨_, _, rfl, hb, hbs⟩ := Ty.eq_of_sameShape_cons h
    obtain ⟨_, _, rfl, hc, hcs⟩ := Ty.eq_of_sameShape_cons h'
    rw [Ty.sameShapeAll, Ty.sameShape_trans hb hc, Ty.sameShapeAll_trans hbs hcs, Bool.and_self]
termination_by structural as => as

/-- Having the same shapes is transitive for arguments. -/
theorem Arg.sameShapeAll_trans : ∀ {as bs cs : List Arg}, Arg.sameShapeAll as bs = true →
    Arg.sameShapeAll bs cs = true → Arg.sameShapeAll as cs = true
  | [], _, _, h, h' => by
    obtain rfl := Arg.eq_of_sameShape_nil h
    exact h'
  | a :: as, _, _, h, h' => by
    obtain ⟨_, _, rfl, hb, hbs⟩ := Arg.eq_of_sameShape_cons h
    obtain ⟨_, _, rfl, hc, hcs⟩ := Arg.eq_of_sameShape_cons h'
    rw [Arg.sameShapeAll, Arg.sameShape_trans hb hc, Arg.sameShapeAll_trans hbs hcs, Bool.and_self]
termination_by structural as => as
end

/-- The fingerprint of an argument never keeps a shape from being seen. -/
theorem Arg.equal_eq_sameShape (a b : Arg) : a.equal b = a.sameShape b := by
  cases h : a.sameShape b with
  | true => rw [Arg.equal, h, Arg.fingerprint_of_sameShape h, beq_self_eq_true, Bool.true_and]
  | false => rw [Arg.equal, h, Bool.and_false]

/-! ### Fingerprints at every part -/

mutual
/-- Equality as it is found part by part: one and the same occurrence is equal to itself; if the
fingerprints of two compound types agree, their parts are compared in the same way. -/
def Ty.equalByParts : Ty → Ty → Bool
  | .nominal s d as, .nominal s' e bs =>
    (Ty.nominal s d as).sameOccurrence (.nominal s' e bs) ||
      ((Ty.nominal s d as).fingerprint == (Ty.nominal s' e bs).fingerprint &&
        (d == e && Arg.equalAllByParts as bs))
  | .array a, .array b =>
    (Ty.array a).sameOccurrence (.array b) ||
      ((Ty.array a).fingerprint == (Ty.array b).fingerprint && a.equalByParts b)
  | .inter s as, .inter s' bs =>
    (Ty.inter s as).sameOccurrence (.inter s' bs) ||
      ((Ty.inter s as).fingerprint == (Ty.inter s' bs).fingerprint && Ty.equalAllByParts as bs)
  | .var (.declared v), .var (.declared w) =>
    (Ty.var (.declared v)).sameOccurrence (.var (.declared w)) ||
      ((Ty.var (.declared v)).fingerprint == (Ty.var (.declared w)).fingerprint && v.key == w.key)
  | a, b => a.sameOccurrence b

/-- Equality of arguments as it is found part by part. -/
def Arg.equalByParts : Arg → Arg → Bool
  | .type a, .type b => a.equalByParts b
  | .wild u l, .wild u' l' =>
    (Arg.wild u l).sameOccurrence (.wild u' l') ||
      ((Arg.wild u l).fingerprint == (Arg.wild u' l').fingerprint &&
        (u.equalByParts u' && l.equalByParts l'))
  | _, _ => false

/-- Equality of the members of two intersections in order. -/
def Ty.equalAllByParts : List Ty → List Ty → Bool
  | [], [] => true
  | a :: as, b :: bs => a.equalByParts b && Ty.equalAllByParts as bs
  | _, _ => false

/-- Equality of two lists of arguments in order. -/
def Arg.equalAllByParts : List Arg → List Arg → Bool
  | [], [] => true
  | a :: as, b :: bs => a.equalByParts b && Arg.equalAllByParts as bs
  | _, _ => false
end

/-- Neither shortcut changes what the comparison of the shapes says. -/
theorem Ty.shortcuts_sameShape (a b : Ty) :
    (a.sameOccurrence b || (a.fingerprint == b.fingerprint && a.sameShape b)) = a.sameShape b := by
  rw [← Ty.equal, Ty.equal_eq_sameShape]
  cases h : a.sameOccurrence b with
  | true => rw [(Ty.sameOccurrence_iff a b).1 h, Ty.sameShape_refl, Bool.or_self]
  | false => rw [Bool.false_or]

/-- The shortcuts for arguments give what comparing shapes gives. -/
theorem Arg.shortcuts_sameShape (a b : Arg) :
    (a.sameOccurrence b || (a.fingerprint == b.fingerprint && a.sameShape b)) = a.sameShape b := by
  rw [← Arg.equal, Arg.equal_eq_sameShape]
  cases h : a.sameOccurrence b with
  | true => rw [(Arg.sameOccurrence_iff a b).1 h, Arg.sameShape_refl, Bool.or_self]
  | false => rw [Bool.false_or]

mutual
/-- **Fingerprints compared at every part keep no two types of one shape apart.** -/
theorem Ty.equalByParts_eq : ∀ a b : Ty, a.equalByParts b = a.sameShape b
  | .prim p, b => by cases b <;> simp [Ty.equalByParts, Ty.sameOccurrence, Ty.sameShape]
  | .null, b => by cases b <;> simp [Ty.equalByParts, Ty.sameOccurrence, Ty.sameShape]
  | .nominal s d as, b => by
    cases b with
    | nominal s' e bs =>
      have h := Ty.shortcuts_sameShape (.nominal s d as) (.nominal s' e bs)
      rw [Ty.sameShape] at h
      rw [Ty.equalByParts, Arg.equalAllByParts_eq as bs, Ty.sameShape, h]
    | _ => simp [Ty.equalByParts, Ty.sameOccurrence, Ty.sameShape]
  | .array e, b => by
    cases b with
    | array e' =>
      have h := Ty.shortcuts_sameShape (.array e) (.array e')
      rw [Ty.sameShape] at h
      rw [Ty.equalByParts, Ty.equalByParts_eq e e', Ty.sameShape, h]
    | _ => simp [Ty.equalByParts, Ty.sameOccurrence, Ty.sameShape]
  | .inter s ms, b => by
    cases b with
    | inter s' ns =>
      have h := Ty.shortcuts_sameShape (.inter s ms) (.inter s' ns)
      rw [Ty.sameShape] at h
      rw [Ty.equalByParts, Ty.equalAllByParts_eq ms ns, Ty.sameShape, h]
    | _ => simp [Ty.equalByParts, Ty.sameOccurrence, Ty.sameShape]
  | .var (.declared v), b => by
    cases b with
    | var w =>
      cases w with
      | declared w =>
        have h := Ty.shortcuts_sameShape (.var (.declared v)) (.var (.declared w))
        rw [Ty.sameShape] at h
        rw [Ty.equalByParts, Ty.sameShape]
        exact h
      | captured j => simp [Ty.equalByParts, Ty.sameOccurrence, Ty.sameShape, Var.key, TypeVar.key]
    | _ => simp [Ty.equalByParts, Ty.sameOccurrence, Ty.sameShape]
  | .var (.captured i), b => by
    cases b with
    | var w =>
      cases w <;>
        simp [Ty.equalByParts, Ty.sameOccurrence, Ty.sameShape, Var.key, TypeVar.key,
          Bool.beq_eq_decide_eq]
    | _ => simp [Ty.equalByParts, Ty.sameOccurrence, Ty.sameShape]
termination_by structural a => a

/-- Arguments are equal part by part exactly if they have the same shape. -/
theorem Arg.equalByParts_eq : ∀ a b : Arg, a.equalByParts b = a.sameShape b
  | .type t, b => by
    cases b with
    | type u => rw [Arg.equalByParts, Arg.sameShape, Ty.equalByParts_eq t u]
    | wild _ _ => rw [Arg.equalByParts, Arg.sameShape] <;> simp
  | .wild u l, b => by
    cases b with
    | type _ => rw [Arg.equalByParts, Arg.sameShape] <;> simp
    | wild u' l' =>
      have h := Arg.shortcuts_sameShape (.wild u l) (.wild u' l')
      rw [Arg.sameShape] at h
      rw [Arg.equalByParts, Ty.equalByParts_eq u u', Ty.equalByParts_eq l l', Arg.sameShape, h]
termination_by structural a => a

/-- Types are equal part by part exactly if they have the same shapes. -/
theorem Ty.equalAllByParts_eq :
    ∀ as bs : List Ty, Ty.equalAllByParts as bs = Ty.sameShapeAll as bs
  | [], bs => by cases bs <;> simp [Ty.equalAllByParts, Ty.sameShapeAll]
  | a :: as, bs => by
    cases bs with
    | nil => simp [Ty.equalAllByParts, Ty.sameShapeAll]
    | cons b bs =>
      rw [Ty.equalAllByParts, Ty.sameShapeAll, Ty.equalByParts_eq a b, Ty.equalAllByParts_eq as bs]
termination_by structural as => as

/-- Lists of arguments are equal part by part exactly if they have the same shapes. -/
theorem Arg.equalAllByParts_eq :
    ∀ as bs : List Arg, Arg.equalAllByParts as bs = Arg.sameShapeAll as bs
  | [], bs => by cases bs <;> simp [Arg.equalAllByParts, Arg.sameShapeAll]
  | a :: as, bs => by
    cases bs with
    | nil => simp [Arg.equalAllByParts, Arg.sameShapeAll]
    | cons b bs =>
      rw [Arg.equalAllByParts, Arg.sameShapeAll, Arg.equalByParts_eq a b,
        Arg.equalAllByParts_eq as bs]
termination_by structural as => as
end

/-! ### What takes the place of variables -/

/-- Lists of the same shapes can be appended. -/
theorem Ty.sameShapeAll_append {as bs as' bs' : List Ty} (h : Ty.sameShapeAll as bs = true)
    (h' : Ty.sameShapeAll as' bs' = true) : Ty.sameShapeAll (as ++ as') (bs ++ bs') = true := by
  rw [Ty.sameShapeAll_iff] at h h' ⊢
  exact List.rel_append h h'

/-- Types of one shape contribute members of the same shapes to an intersection. -/
theorem Ty.sameShapeAll_conjuncts {a b : Ty} (h : a.sameShape b = true) :
    Ty.sameShapeAll a.conjuncts b.conjuncts = true := by
  cases ha : a.isInter with
  | true =>
    cases a with
    | inter st ms =>
      obtain ⟨st', ns, rfl, hmembers⟩ := Ty.eq_of_sameShape_inter h
      exact hmembers
    | _ => cases ha
  | false =>
    rw [Ty.conjuncts_of_not_inter ha,
      Ty.conjuncts_of_not_inter ((Ty.isInter_of_sameShape h).symm.trans ha), Ty.sameShapeAll, h,
      Ty.sameShapeAll, Bool.and_self]

/-- Types of the same shapes have conjuncts of the same shapes. -/
theorem Ty.sameShapeAll_flatMap_conjuncts {as bs : List Ty} (h : Ty.sameShapeAll as bs = true) :
    Ty.sameShapeAll (as.flatMap Ty.conjuncts) (bs.flatMap Ty.conjuncts) = true := by
  induction as generalizing bs with
  | nil =>
    rw [Ty.eq_of_sameShape_nil h]
    exact Ty.sameShapeAll_refl _
  | cons a as ih =>
    obtain ⟨b, bs, rfl, hb, hbs⟩ := Ty.eq_of_sameShape_cons h
    rw [List.flatMap_cons, List.flatMap_cons]
    exact Ty.sameShapeAll_append (Ty.sameShapeAll_conjuncts hb) (ih hbs)

/-- What is given to variables of one key has one shape. -/
def RespectsKeys (f g : Var → Ty) : Prop := ∀ v w : Var, v.key = w.key → (f v).sameShape (g w) = true

mutual
/-- **Rebuilding respects the shape.** -/
theorem Ty.sameShape_rebuild {f g : Var → Ty} (hfg : RespectsKeys f g) :
    ∀ {a b : Ty}, a.sameShape b = true → (a.rebuild f).sameShape (b.rebuild g) = true
  | .prim p, _, h => by
    obtain rfl := Ty.eq_of_sameShape_prim h
    exact h
  | .null, _, h => by
    obtain rfl := Ty.eq_of_sameShape_null h
    exact h
  | .nominal st d as, _, h => by
    obtain ⟨st', bs, rfl, hargs⟩ := Ty.eq_of_sameShape_nominal h
    rw [Ty.rebuild, Ty.rebuild, Ty.sameShape, beq_self_eq_true, Arg.sameShapeAll_rebuildAll hfg hargs,
      Bool.and_self]
  | .array e, _, h => by
    obtain ⟨e', rfl, helem⟩ := Ty.eq_of_sameShape_array h
    rw [Ty.rebuild, Ty.rebuild, Ty.sameShape, Ty.sameShape_rebuild hfg helem]
  | .inter st ms, _, h => by
    obtain ⟨st', ns, rfl, hmembers⟩ := Ty.eq_of_sameShape_inter h
    rw [Ty.rebuild, Ty.rebuild, Ty.sameShape, Ty.sameShapeAll_rebuildParts hfg hmembers]
  | .var v, _, h => by
    obtain ⟨w, rfl, hkey⟩ := Ty.eq_of_sameShape_var h
    exact hfg v w hkey
termination_by structural a => a

/-- Rebuilding leaves arguments of one shape so, if keys are respected. -/
theorem Arg.sameShape_rebuild {f g : Var → Ty} (hfg : RespectsKeys f g) :
    ∀ {a b : Arg}, a.sameShape b = true → (a.rebuild f).sameShape (b.rebuild g) = true
  | .type t, _, h => by
    obtain ⟨t', rfl, htype⟩ := Arg.eq_of_sameShape_type h
    rw [Arg.rebuild, Arg.rebuild, Arg.sameShape, Ty.sameShape_rebuild hfg htype]
  | .wild u l, _, h => by
    obtain ⟨u', l', rfl, hu, hl⟩ := Arg.eq_of_sameShape_wild h
    rw [Arg.rebuild, Arg.rebuild, Arg.sameShape, Ty.sameShape_rebuild hfg hu,
      Ty.sameShape_rebuild hfg hl, Bool.and_self]
termination_by structural a => a

/-- Rebuilding leaves types of the same shapes so, if keys are respected. -/
theorem Ty.sameShapeAll_rebuildParts {f g : Var → Ty} (hfg : RespectsKeys f g) :
    ∀ {as bs : List Ty}, Ty.sameShapeAll as bs = true →
      Ty.sameShapeAll (Ty.rebuildParts f as) (Ty.rebuildParts g bs) = true
  | [], _, h => by
    obtain rfl := Ty.eq_of_sameShape_nil h
    exact h
  | a :: as, _, h => by
    obtain ⟨b, bs, rfl, hb, hbs⟩ := Ty.eq_of_sameShape_cons h
    rw [Ty.rebuildParts, Ty.rebuildParts]
    exact Ty.sameShapeAll_append (Ty.sameShapeAll_conjuncts (Ty.sameShape_rebuild hfg hb))
      (Ty.sameShapeAll_rebuildParts hfg hbs)
termination_by structural as => as

/-- Rebuilding leaves lists of arguments of the same shapes so, if keys are respected. -/
theorem Arg.sameShapeAll_rebuildAll {f g : Var → Ty} (hfg : RespectsKeys f g) :
    ∀ {as bs : List Arg}, Arg.sameShapeAll as bs = true →
      Arg.sameShapeAll (Arg.rebuildAll f as) (Arg.rebuildAll g bs) = true
  | [], _, h => by
    obtain rfl := Arg.eq_of_sameShape_nil h
    exact h
  | a :: as, _, h => by
    obtain ⟨b, bs, rfl, hb, hbs⟩ := Arg.eq_of_sameShape_cons h
    rw [Arg.rebuildAll, Arg.rebuildAll, Arg.sameShapeAll, Arg.sameShape_rebuild hfg hb,
      Arg.sameShapeAll_rebuildAll hfg hbs, Bool.and_self]
termination_by structural as => as
end

/-- What a variable stands for after substitution: the type it is given as it is, or the variable
itself. -/
def Subst.given (σ : Subst) (v : Var) : Ty := (σ.lookup v).getD (.var v)

/-- What a substitution gives to variables depends on their keys only. -/
theorem Subst.respectsKeys_given (σ : Subst) : RespectsKeys σ.given σ.given := by
  intro v w hkey
  rw [Subst.given, Subst.given, σ.lookup_congr hkey]
  cases σ.lookup w with
  | none =>
    rw [Option.getD_none, Option.getD_none, Ty.sameShape]
    exact beq_iff_eq.2 hkey
  | some u => exact Ty.sameShape_refl u

/-- An intersection of types has the shape of their contributions taken together. -/
theorem Ty.sameShape_meet (site site' : Site) {as bs : List Ty} (h : Ty.sameShapeAll as bs = true) :
    (Ty.meet site as).sameShape (.inter site' (bs.flatMap Ty.conjuncts)) = true := by
  have hparts := Ty.sameShapeAll_flatMap_conjuncts h
  rw [Ty.meet]
  split
  · next hnil =>
    rw [hnil] at hparts
    rwa [Ty.top, Ty.sameShape]
  · next members hne => rwa [Ty.sameShape]

/-- The members of a flat intersection contribute themselves. -/
theorem Ty.flatMap_conjuncts_of_flat {ts : List Ty} (h : ∀ t ∈ ts, t.isInter = false) :
    ts.flatMap Ty.conjuncts = ts := by
  induction ts with
  | nil => rfl
  | cons t ts ih =>
    obtain ⟨ht, hts⟩ := List.forall_mem_cons.1 h
    rw [List.flatMap_cons, Ty.conjuncts_of_not_inter ht, ih hts, List.singleton_append]

/-- The argument with its variables replaced. -/
def Arg.subst (σ : Subst) (site : Site) (a : Arg) : Arg := (a.subst? σ site).getD a

mutual
/-- **Substitution gives a flat type the shape of the plain rebuild**, although it leaves alone what
does not change. -/
theorem Ty.sameShape_subst (σ : Subst) (site : Site) :
    ∀ {t : Ty}, t.isFlat = true → (t.subst σ site).sameShape (t.rebuild σ.given) = true
  | .prim p, _ => Ty.sameShape_refl (.prim p)
  | .null, _ => Ty.sameShape_refl .null
  | .nominal st d as, h => by
    rw [Ty.isFlat] at h
    have has := Arg.sameShapeAll_subst σ site 0 h
    rw [Ty.subst, Ty.subst?, Ty.rebuild]
    cases hs : Arg.substAll? σ site 0 as with
    | none =>
      rw [hs] at has
      rw [Option.map_none, Option.getD_none, Ty.sameShape, beq_self_eq_true]
      exact has
    | some bs =>
      rw [hs] at has
      rw [Option.map_some, Option.getD_some, Ty.sameShape, beq_self_eq_true]
      exact has
  | .array e, h => by
    rw [Ty.isFlat] at h
    have he := Ty.sameShape_subst σ site h
    rw [Ty.subst] at he
    rw [Ty.subst, Ty.subst?, Ty.rebuild]
    cases hs : e.subst? σ site with
    | none =>
      rw [hs] at he
      rw [Option.map_none, Option.getD_none, Ty.sameShape]
      exact he
    | some e' =>
      rw [hs] at he
      rw [Option.map_some, Option.getD_some, Ty.sameShape]
      exact he
  | .inter st ms, h => by
    rw [Ty.isFlat, Ty.allFlat_iff] at h
    have hms := Ty.sameShapeAll_subst σ site 0 fun t (ht : t ∈ ms) => (h t ht).2
    have hparts : Ty.rebuildParts σ.given ms = (ms.map (Ty.rebuild σ.given)).flatMap Ty.conjuncts := by
      rw [Ty.rebuildParts_eq_flatMap, List.flatMap_map]
    rw [Ty.subst, Ty.subst?, Ty.rebuild, hparts]
    cases hs : Ty.substAll? σ site 0 ms with
    | none =>
      -- the members stay, and contribute themselves
      rw [hs, Option.getD_none] at hms
      have hflat := Ty.flatMap_conjuncts_of_flat fun t ht => (h t ht).1
      have hsame := Ty.sameShapeAll_flatMap_conjuncts hms
      rw [hflat] at hsame
      rwa [Option.map_none, Option.getD_none, Ty.sameShape]
    | some ms' =>
      rw [hs, Option.getD_some] at hms
      exact Ty.sameShape_meet site .common hms
  | .var v, _ => by
    rw [Ty.subst, Ty.subst?, Ty.rebuild, Subst.given]
    cases σ.lookup v with
    | none => exact Ty.sameShape_refl (.var v)
    | some u =>
      by_cases hu : u = .var v
      · simp [Option.filter, hu, Ty.sameShape]
      · simp [Option.filter, hu, Ty.sameShape_refl]

/-- A substituted argument has the shape of the rebuilt one. -/
theorem Arg.sameShape_subst (σ : Subst) (site : Site) :
    ∀ {a : Arg}, a.isFlat = true → (a.subst σ site).sameShape (a.rebuild σ.given) = true
  | .type t, h => by
    rw [Arg.isFlat] at h
    have ht := Ty.sameShape_subst σ site h
    rw [Ty.subst] at ht
    rw [Arg.subst, Arg.subst?, Arg.rebuild]
    cases hs : t.subst? σ site with
    | none =>
      rw [hs] at ht
      rwa [Option.map_none, Option.getD_none, Arg.sameShape]
    | some t' =>
      rw [hs] at ht
      rwa [Option.map_some, Option.getD_some, Arg.sameShape]
  | .wild u l, h => by
    rw [Arg.isFlat, Bool.and_eq_true] at h
    have hu := Ty.sameShape_subst σ (site.part 0) h.1
    have hl := Ty.sameShape_subst σ (site.part 1) h.2
    rw [Ty.subst] at hu hl
    rw [Arg.subst, Arg.subst?, Arg.rebuild]
    cases hsu : u.subst? σ (site.part 0) <;> cases hsl : l.subst? σ (site.part 1) <;>
      simp_all [Arg.sameShape]

/-- Substituted types have the shapes of the rebuilt ones. -/
theorem Ty.sameShapeAll_subst (σ : Subst) (site : Site) :
    ∀ (i : Nat) {ts : List Ty}, (∀ t ∈ ts, t.isFlat = true) →
      Ty.sameShapeAll ((Ty.substAll? σ site i ts).getD ts) (ts.map (Ty.rebuild σ.given)) = true
  | _, [], _ => Ty.sameShapeAll_refl []
  | i, t :: ts, h => by
    obtain ⟨ht, hts⟩ := List.forall_mem_cons.1 h
    have ht := Ty.sameShape_subst σ (site.part i) ht
    have hts := Ty.sameShapeAll_subst σ site (i + 1) hts
    rw [Ty.subst] at ht
    rw [Ty.substAll?, List.map_cons]
    cases hst : t.subst? σ (site.part i) <;> cases hss : Ty.substAll? σ site (i + 1) ts <;>
      simp_all [Ty.sameShapeAll]

/-- Substituted arguments have the shapes of the rebuilt ones. -/
theorem Arg.sameShapeAll_subst (σ : Subst) (site : Site) :
    ∀ (i : Nat) {as : List Arg}, Arg.allFlat as = true →
      Arg.sameShapeAll ((Arg.substAll? σ site i as).getD as) (Arg.rebuildAll σ.given as) = true
  | _, [], _ => Arg.sameShapeAll_refl []
  | i, a :: as, h => by
    rw [Arg.allFlat, Bool.and_eq_true] at h
    have ha := Arg.sameShape_subst σ (site.part i) h.1
    have has := Arg.sameShapeAll_subst σ site (i + 1) h.2
    rw [Arg.subst] at ha
    rw [Arg.substAll?, Arg.rebuildAll]
    cases hsa : a.subst? σ (site.part i) <;> cases hss : Arg.substAll? σ site (i + 1) as <;>
      simp_all [Arg.sameShapeAll]
end

mutual
/-- Types of one shape are both flat or neither. -/
theorem Ty.isFlat_of_sameShape : ∀ {a b : Ty}, a.sameShape b = true → a.isFlat = b.isFlat
  | .prim p, _, h => by rw [Ty.eq_of_sameShape_prim h]
  | .null, _, h => by rw [Ty.eq_of_sameShape_null h]
  | .nominal st d as, _, h => by
    obtain ⟨st', bs, rfl, hargs⟩ := Ty.eq_of_sameShape_nominal h
    rw [Ty.isFlat, Ty.isFlat, Arg.allFlat_of_sameShape hargs]
  | .array e, _, h => by
    obtain ⟨e', rfl, helem⟩ := Ty.eq_of_sameShape_array h
    rw [Ty.isFlat, Ty.isFlat, Ty.isFlat_of_sameShape helem]
  | .inter st ms, _, h => by
    obtain ⟨st', ns, rfl, hmembers⟩ := Ty.eq_of_sameShape_inter h
    rw [Ty.isFlat, Ty.isFlat, Ty.allFlat_of_sameShape hmembers]
  | .var v, _, h => by
    obtain ⟨w, rfl, -⟩ := Ty.eq_of_sameShape_var h
    rw [Ty.isFlat, Ty.isFlat]
termination_by structural a => a

/-- Arguments of one shape are both flat or neither. -/
theorem Arg.isFlat_of_sameShape : ∀ {a b : Arg}, a.sameShape b = true → a.isFlat = b.isFlat
  | .type t, _, h => by
    obtain ⟨t', rfl, htype⟩ := Arg.eq_of_sameShape_type h
    rw [Arg.isFlat, Arg.isFlat, Ty.isFlat_of_sameShape htype]
  | .wild u l, _, h => by
    obtain ⟨u', l', rfl, hu, hl⟩ := Arg.eq_of_sameShape_wild h
    rw [Arg.isFlat, Arg.isFlat, Ty.isFlat_of_sameShape hu, Ty.isFlat_of_sameShape hl]
termination_by structural a => a

/-- Types of the same shapes are all flat or not. -/
theorem Ty.allFlat_of_sameShape :
    ∀ {as bs : List Ty}, Ty.sameShapeAll as bs = true → Ty.allFlat as = Ty.allFlat bs
  | [], _, h => by rw [Ty.eq_of_sameShape_nil h]
  | a :: as, _, h => by
    obtain ⟨b, bs, rfl, hb, hbs⟩ := Ty.eq_of_sameShape_cons h
    rw [Ty.allFlat, Ty.allFlat, Ty.isInter_of_sameShape hb, Ty.isFlat_of_sameShape hb,
      Ty.allFlat_of_sameShape hbs]
termination_by structural as => as

/-- Lists of arguments of the same shapes are all flat or not. -/
theorem Arg.allFlat_of_sameShape :
    ∀ {as bs : List Arg}, Arg.sameShapeAll as bs = true → Arg.allFlat as = Arg.allFlat bs
  | [], _, h => by rw [Arg.eq_of_sameShape_nil h]
  | a :: as, _, h => by
    obtain ⟨b, bs, rfl, hb, hbs⟩ := Arg.eq_of_sameShape_cons h
    rw [Arg.allFlat, Arg.allFlat, Arg.isFlat_of_sameShape hb, Arg.allFlat_of_sameShape hbs]
termination_by structural as => as
end

/-- **Substitution respects the shape of flat types**, also where it changes one and leaves the other
alone. -/
theorem Ty.sameShape_subst_congr (σ : Subst) (site site' : Site) {a b : Ty} (hflat : a.isFlat = true)
    (h : a.sameShape b = true) : (a.subst σ site).sameShape (b.subst σ site') = true := by
  have ha := Ty.sameShape_subst σ site hflat
  have hb := Ty.sameShape_subst σ site' ((Ty.isFlat_of_sameShape h).symm.trans hflat)
  have hab := Ty.sameShape_rebuild σ.respectsKeys_given h
  exact Ty.sameShape_trans ha (Ty.sameShape_trans hab (Ty.sameShape_symm hb))

/-- Substituting leaves arguments of one shape so, wherever they stand. -/
theorem Arg.sameShape_subst_congr (σ : Subst) (site site' : Site) {a b : Arg}
    (hflat : a.isFlat = true) (h : a.sameShape b = true) :
    (a.subst σ site).sameShape (b.subst σ site') = true := by
  have ha := Arg.sameShape_subst σ site hflat
  have hb := Arg.sameShape_subst σ site' ((Arg.isFlat_of_sameShape h).symm.trans hflat)
  have hab := Arg.sameShape_rebuild σ.respectsKeys_given h
  exact Arg.sameShape_trans ha (Arg.sameShape_trans hab (Arg.sameShape_symm hb))

/-! ### Coherence -/

/-- What an equality of types, or of arguments, has to do with their structure, with their fingerprints
and with substitution. -/
structure CoherentEquality {α : Type} (equal equalByParts : α → α → Bool) (same : α → α → Prop)
    (fingerprint : α → UInt64) (isFlat : α → Bool) (subst : Subst → Site → α → α) : Prop where
  /-- Equal is what has the same structure: fingerprints keep nothing apart that has. -/
  decides : ∀ a b, equal a b = true ↔ same a b
  /-- Nor do they when they are compared again at every part. -/
  parts : ∀ a b, equalByParts a b = equal a b
  equivalence : Equivalence fun a b => equal a b = true
  fingerprints : ∀ a b, equal a b = true → fingerprint a = fingerprint b
  /-- Of flat types, which are all that the library builds. A member that is an intersection would be
  taken apart only where something changes. -/
  substitution : ∀ σ site site' a b, isFlat a = true → equal a b = true →
    equal (subst σ site a) (subst σ site' b) = true

/-- **Equality is coherent**, of types and of arguments: it decides whether the structure is the same,
is an equivalence relation, and is respected by fingerprints and by substitution. -/
theorem equality_coherent :
    CoherentEquality Ty.equal Ty.equalByParts Ty.SameStructure Ty.fingerprint Ty.isFlat Ty.subst ∧
      CoherentEquality Arg.equal Arg.equalByParts Arg.SameStructure Arg.fingerprint Arg.isFlat
        Arg.subst := by
  constructor
  · exact {
      decides := fun a b => by rw [Ty.equal_eq_sameShape, Ty.sameShape_iff]
      parts := fun a b => by rw [Ty.equal_eq_sameShape, Ty.equalByParts_eq]
      equivalence := by
        simp only [Ty.equal_eq_sameShape]
        exact ⟨Ty.sameShape_refl, Ty.sameShape_symm, Ty.sameShape_trans⟩
      fingerprints := fun a b h => by
        rw [Ty.equal_eq_sameShape] at h
        exact Ty.fingerprint_of_sameShape h
      substitution := fun σ site site' a b hflat h => by
        rw [Ty.equal_eq_sameShape] at h ⊢
        exact Ty.sameShape_subst_congr σ site site' hflat h }
  · exact {
      decides := fun a b => by rw [Arg.equal_eq_sameShape, Arg.sameShape_iff]
      parts := fun a b => by rw [Arg.equal_eq_sameShape, Arg.equalByParts_eq]
      equivalence := by
        simp only [Arg.equal_eq_sameShape]
        exact ⟨Arg.sameShape_refl, Arg.sameShape_symm, Arg.sameShape_trans⟩
      fingerprints := fun a b h => by
        rw [Arg.equal_eq_sameShape] at h
        exact Arg.fingerprint_of_sameShape h
      substitution := fun σ site site' a b hflat h => by
        rw [Arg.equal_eq_sameShape] at h ⊢
        exact Arg.sameShape_subst_congr σ site site' hflat h }

/-- `Map<E, ? extends E & Cap#2[]>` and a copy with a variable of the same declaration and name that has
another bound, and what becomes of both when `Number & Comparable<E>` takes the place of `E`: of the copy
too, although the type that is put in mentions the first variable only. -/
theorem equality_coherent_copy :
    let e : TypeVar := ⟨"List", "E", .param 0⟩
    let e' : TypeVar := ⟨"List", "E", .free 3⟩
    let map (n : Nat) (v : TypeVar) : Ty := .nominal ⟨.given n, [0]⟩ "Map" [
      .type (.var (.declared v)),
      .wild (.inter ⟨.given n, [8]⟩ [.var (.declared v), .array (.var (.captured 2))]) .null]
    let σ : Subst := Subst.insert {} (.declared e) (.inter ⟨.given 2, [0]⟩ [
      .nominal ⟨.given 2, [1]⟩ "Number" [],
      .nominal ⟨.given 2, [2]⟩ "Comparable" [.type (.var (.declared e))]])
    (map 0 e).isFlat = true ∧ (map 0 e).equal (map 1 e') = true ∧
      (map 0 e).SameStructure (map 1 e') ∧ (map 0 e).fingerprint = (map 1 e').fingerprint ∧
      ((map 0 e).subst σ ⟨.built 1, []⟩).equal ((map 1 e').subst σ ⟨.built 2, []⟩) = true ∧
      (map 0 e).subst σ ⟨.built 1, []⟩ ≠ map 0 e := by
  intro e e' map σ
  have hflat : (map 0 e).isFlat = true := by decide +kernel
  have hequal : (map 0 e).equal (map 1 e') = true := by decide +kernel
  have hcoherent := equality_coherent.1
  exact ⟨hflat, hequal, (hcoherent.decides _ _).1 hequal, hcoherent.fingerprints _ _ hequal,
    hcoherent.substitution σ _ _ _ _ hflat hequal, by decide +kernel⟩

end Generics
