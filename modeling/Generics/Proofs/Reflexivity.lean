/-
# Copies are below each other

Equality looks at the shape of types, and a variable is recognised by its key. A type and a copy of
it, built apart, are two occurrences, so that comparing them gets no help from the rule that an
occurrence is below itself: the left side is captured, and each captured variable must be found
within the wildcard that it stands for, while the right side still has the wildcard.

No such comparison answers no (`copy_granted`), if going up from the variables of both sides comes to
an end (`Setting.Stands`):

- the lower bound of a wildcard is below the variable, because it is a copy of the lower bound of
  the variable, with the sides exchanged (`lower_granted`);
- the variable is below each member of the upper bound of the wildcard, because its own upper bound
  has a copy of that member; a top type as the upper bound was left out of it, and then the bound of
  the parameter has to rise (`upper_granted`).

That the variables of the copy rise has to be asked for. A variable that merely has the key of a
parameter makes an equal type, and may be bounded by that parameter: then the copy is not above the
type (`below_of_equal_refuted`).
-/

import Generics.Proofs.Rising

namespace Generics

/-! ### Equal types -/

section Forms

variable {b : Ty} {c : Arg} {bs : List Ty} {cs : List Arg}

/-- Only the primitive type itself has its shape. -/
theorem Ty.eq_of_sameShape_prim {p : Primitive} (h : (Ty.prim p).sameShape b = true) :
    b = .prim p := by
  cases b <;> simp [Ty.sameShape] at h
  rw [h]

/-- Only `Null` has its shape. -/
theorem Ty.eq_of_sameShape_null (h : Ty.null.sameShape b = true) : b = .null := by
  cases b <;> simp [Ty.sameShape] at h
  rfl

/-- Types of the shape of an applied declaration apply the same declaration. -/
theorem Ty.eq_of_sameShape_nominal {st : Site} {d : String} {as : List Arg}
    (h : (Ty.nominal st d as).sameShape b = true) :
    ∃ st' cs, b = .nominal st' d cs ∧ Arg.sameShapeAll as cs = true := by
  cases b <;> simp [Ty.sameShape] at h
  exact ⟨_, _, by rw [h.1], h.2⟩

/-- Types of the shape of an array are arrays. -/
theorem Ty.eq_of_sameShape_array {e : Ty} (h : (Ty.array e).sameShape b = true) :
    ∃ e', b = .array e' ∧ e.sameShape e' = true := by
  cases b <;> simp [Ty.sameShape] at h
  exact ⟨_, rfl, h⟩

/-- Types of the shape of an intersection are intersections. -/
theorem Ty.eq_of_sameShape_inter {st : Site} {ms : List Ty} (h : (Ty.inter st ms).sameShape b = true) :
    ∃ st' ns, b = .inter st' ns ∧ Ty.sameShapeAll ms ns = true := by
  cases b <;> simp [Ty.sameShape] at h
  exact ⟨_, _, rfl, h⟩

/-- Types of the shape of a variable are variables with its key. -/
theorem Ty.eq_of_sameShape_var {v : Var} (h : (Ty.var v).sameShape b = true) :
    ∃ w, b = .var w ∧ v.key = w.key := by
  cases b <;> simp [Ty.sameShape] at h
  exact ⟨_, rfl, h⟩

/-- Arguments of the shape of a type are types. -/
theorem Arg.eq_of_sameShape_type {t : Ty} (h : (Arg.type t).sameShape c = true) :
    ∃ t', c = .type t' ∧ t.sameShape t' = true := by
  cases c <;> simp [Arg.sameShape] at h
  exact ⟨_, rfl, h⟩

/-- Arguments of the shape of a wildcard are wildcards. -/
theorem Arg.eq_of_sameShape_wild {u l : Ty} (h : (Arg.wild u l).sameShape c = true) :
    ∃ u' l', c = .wild u' l' ∧ u.sameShape u' = true ∧ l.sameShape l' = true := by
  cases c <;> simp [Arg.sameShape] at h
  exact ⟨_, _, rfl, h⟩

/-- Only the empty list has the shape of no types. -/
theorem Ty.eq_of_sameShape_nil (h : Ty.sameShapeAll [] bs = true) : bs = [] := by
  cases bs <;> simp [Ty.sameShapeAll] at h
  rfl

/-- Lists of the shape of a longer list of types go on as it does. -/
theorem Ty.eq_of_sameShape_cons {a : Ty} {as : List Ty} (h : Ty.sameShapeAll (a :: as) bs = true) :
    ∃ b bs', bs = b :: bs' ∧ a.sameShape b = true ∧ Ty.sameShapeAll as bs' = true := by
  cases bs <;> simp [Ty.sameShapeAll] at h
  exact ⟨_, _, rfl, h⟩

/-- Only the empty list has the shape of no arguments. -/
theorem Arg.eq_of_sameShape_nil (h : Arg.sameShapeAll [] cs = true) : cs = [] := by
  cases cs <;> simp [Arg.sameShapeAll] at h
  rfl

/-- Lists of the shape of a longer list of arguments go on as it does. -/
theorem Arg.eq_of_sameShape_cons {a : Arg} {as : List Arg}
    (h : Arg.sameShapeAll (a :: as) cs = true) :
    ∃ c cs', cs = c :: cs' ∧ a.sameShape c = true ∧ Arg.sameShapeAll as cs' = true := by
  cases cs <;> simp [Arg.sameShapeAll] at h
  exact ⟨_, _, rfl, h⟩

end Forms

mutual
/-- Having the same shape goes both ways. -/
theorem Ty.sameShape_symm : ∀ {a b : Ty}, a.sameShape b = true → b.sameShape a = true
  | .prim p, _, h => by
    obtain rfl := Ty.eq_of_sameShape_prim h
    exact h
  | .null, _, h => by
    obtain rfl := Ty.eq_of_sameShape_null h
    exact h
  | .nominal st d as, _, h => by
    obtain ⟨st', cs, rfl, hargs⟩ := Ty.eq_of_sameShape_nominal h
    rw [Ty.sameShape, beq_self_eq_true, Arg.sameShapeAll_symm hargs, Bool.and_self]
  | .array e, _, h => by
    obtain ⟨e', rfl, helem⟩ := Ty.eq_of_sameShape_array h
    rw [Ty.sameShape, Ty.sameShape_symm helem]
  | .inter st ms, _, h => by
    obtain ⟨st', ns, rfl, hmembers⟩ := Ty.eq_of_sameShape_inter h
    rw [Ty.sameShape, Ty.sameShapeAll_symm hmembers]
  | .var v, _, h => by
    obtain ⟨w, rfl, hkey⟩ := Ty.eq_of_sameShape_var h
    rw [Ty.sameShape]
    exact beq_iff_eq.2 hkey.symm
termination_by structural a => a

/-- The same for arguments. -/
theorem Arg.sameShape_symm : ∀ {a b : Arg}, a.sameShape b = true → b.sameShape a = true
  | .type t, _, h => by
    obtain ⟨t', rfl, htype⟩ := Arg.eq_of_sameShape_type h
    rw [Arg.sameShape, Ty.sameShape_symm htype]
  | .wild u l, _, h => by
    obtain ⟨u', l', rfl, hu, hl⟩ := Arg.eq_of_sameShape_wild h
    rw [Arg.sameShape, Ty.sameShape_symm hu, Ty.sameShape_symm hl, Bool.and_self]
termination_by structural a => a

/-- The same for lists of types. -/
theorem Ty.sameShapeAll_symm :
    ∀ {as bs : List Ty}, Ty.sameShapeAll as bs = true → Ty.sameShapeAll bs as = true
  | [], _, h => by
    obtain rfl := Ty.eq_of_sameShape_nil h
    exact h
  | a :: as, _, h => by
    obtain ⟨b, bs, rfl, hb, hbs⟩ := Ty.eq_of_sameShape_cons h
    rw [Ty.sameShapeAll, Ty.sameShape_symm hb, Ty.sameShapeAll_symm hbs, Bool.and_self]
termination_by structural as => as

/-- The same for lists of arguments. -/
theorem Arg.sameShapeAll_symm :
    ∀ {as bs : List Arg}, Arg.sameShapeAll as bs = true → Arg.sameShapeAll bs as = true
  | [], _, h => by
    obtain rfl := Arg.eq_of_sameShape_nil h
    exact h
  | a :: as, _, h => by
    obtain ⟨b, bs, rfl, hb, hbs⟩ := Arg.eq_of_sameShape_cons h
    rw [Arg.sameShapeAll, Arg.sameShape_symm hb, Arg.sameShapeAll_symm hbs, Bool.and_self]
termination_by structural as => as
end

mutual
/-- Every type has its own shape. -/
theorem Ty.sameShape_refl : ∀ t : Ty, t.sameShape t = true
  | .prim p => by rw [Ty.sameShape, beq_self_eq_true]
  | .null => by rw [Ty.sameShape]
  | .nominal _ d as => by rw [Ty.sameShape, beq_self_eq_true, Arg.sameShapeAll_refl as, Bool.and_self]
  | .array e => by rw [Ty.sameShape, Ty.sameShape_refl e]
  | .inter _ ms => by rw [Ty.sameShape, Ty.sameShapeAll_refl ms]
  | .var v => by rw [Ty.sameShape, beq_self_eq_true]
termination_by structural t => t

/-- Every argument has its own shape. -/
theorem Arg.sameShape_refl : ∀ a : Arg, a.sameShape a = true
  | .type t => by rw [Arg.sameShape, Ty.sameShape_refl t]
  | .wild u l => by rw [Arg.sameShape, Ty.sameShape_refl u, Ty.sameShape_refl l, Bool.and_self]
termination_by structural a => a

/-- Types have their own shapes. -/
theorem Ty.sameShapeAll_refl : ∀ ts : List Ty, Ty.sameShapeAll ts ts = true
  | [] => by rw [Ty.sameShapeAll]
  | t :: ts => by rw [Ty.sameShapeAll, Ty.sameShape_refl t, Ty.sameShapeAll_refl ts, Bool.and_self]
termination_by structural ts => ts

/-- Arguments have their own shapes. -/
theorem Arg.sameShapeAll_refl : ∀ as : List Arg, Arg.sameShapeAll as as = true
  | [] => by rw [Arg.sameShapeAll]
  | a :: as => by rw [Arg.sameShapeAll, Arg.sameShape_refl a, Arg.sameShapeAll_refl as, Bool.and_self]
termination_by structural as => as
end

/-- The fingerprint of a variable depends on its key only. -/
theorem Var.fingerprint_of_key {v w : Var} (h : v.key = w.key) : v.fingerprint = w.fingerprint := by
  cases v with
  | declared v =>
    cases w with
    | declared w =>
      injection h with hdecl hname
      rw [Var.fingerprint, Var.fingerprint, hdecl, hname]
    | captured j => cases h
  | captured i =>
    cases w with
    | declared w => cases h
    | captured j =>
      injection h with h
      rw [h]

mutual
/-- Types of the same shape have the same fingerprint, so that the shape alone decides equality. -/
theorem Ty.fingerprint_of_sameShape :
    ∀ {a b : Ty}, a.sameShape b = true → a.fingerprint = b.fingerprint
  | .prim p, _, h => by rw [Ty.eq_of_sameShape_prim h]
  | .null, _, h => by rw [Ty.eq_of_sameShape_null h]
  | .nominal st d as, _, h => by
    obtain ⟨st', cs, rfl, hargs⟩ := Ty.eq_of_sameShape_nominal h
    rw [Ty.fingerprint, Ty.fingerprint, Arg.mixAll_of_sameShape hargs]
  | .array e, _, h => by
    obtain ⟨e', rfl, helem⟩ := Ty.eq_of_sameShape_array h
    rw [Ty.fingerprint, Ty.fingerprint, Ty.fingerprint_of_sameShape helem]
  | .inter st ms, _, h => by
    obtain ⟨st', ns, rfl, hmembers⟩ := Ty.eq_of_sameShape_inter h
    rw [Ty.fingerprint, Ty.fingerprint, Ty.mixAll_of_sameShape hmembers]
  | .var v, _, h => by
    obtain ⟨w, rfl, hkey⟩ := Ty.eq_of_sameShape_var h
    exact Var.fingerprint_of_key hkey
termination_by structural a => a

/-- Arguments of one shape have one fingerprint. -/
theorem Arg.fingerprint_of_sameShape :
    ∀ {a b : Arg}, a.sameShape b = true → a.fingerprint = b.fingerprint
  | .type t, _, h => by
    obtain ⟨t', rfl, htype⟩ := Arg.eq_of_sameShape_type h
    rw [Arg.fingerprint, Arg.fingerprint, Ty.fingerprint_of_sameShape htype]
  | .wild u l, _, h => by
    obtain ⟨u', l', rfl, hu, hl⟩ := Arg.eq_of_sameShape_wild h
    rw [Arg.fingerprint, Arg.fingerprint, Ty.fingerprint_of_sameShape hu,
      Ty.fingerprint_of_sameShape hl]
termination_by structural a => a

/-- Types of one shape are mixed into a fingerprint alike. -/
theorem Ty.mixAll_of_sameShape : ∀ {as bs : List Ty} {x : UInt64},
    Ty.sameShapeAll as bs = true → Ty.mixAll x as = Ty.mixAll x bs
  | [], _, _, h => by rw [Ty.eq_of_sameShape_nil h]
  | a :: as, _, _, h => by
    obtain ⟨b, bs, rfl, hb, hbs⟩ := Ty.eq_of_sameShape_cons h
    rw [Ty.mixAll, Ty.mixAll, Ty.fingerprint_of_sameShape hb, Ty.mixAll_of_sameShape hbs]
termination_by structural as => as

/-- Arguments of one shape are mixed into a fingerprint alike. -/
theorem Arg.mixAll_of_sameShape : ∀ {as bs : List Arg} {x : UInt64},
    Arg.sameShapeAll as bs = true → Arg.mixAll x as = Arg.mixAll x bs
  | [], _, _, h => by rw [Arg.eq_of_sameShape_nil h]
  | a :: as, _, _, h => by
    obtain ⟨b, bs, rfl, hb, hbs⟩ := Arg.eq_of_sameShape_cons h
    rw [Arg.mixAll, Arg.mixAll, Arg.fingerprint_of_sameShape hb, Arg.mixAll_of_sameShape hbs]
termination_by structural as => as
end

/-- Types of one shape are equal. -/
theorem Ty.equal_of_sameShape {a b : Ty} (h : a.sameShape b = true) : a.equal b = true := by
  rw [Ty.equal, h, Ty.fingerprint_of_sameShape h, beq_self_eq_true, Bool.true_and]

/-- **Types are equal if they have one shape.** -/
theorem Ty.equal_eq_sameShape (a b : Ty) : a.equal b = a.sameShape b := by
  cases h : a.sameShape b with
  | true => exact Ty.equal_of_sameShape h
  | false => simp [Ty.equal, h]

/-- Lists of arguments of one shape are equally long. -/
theorem Arg.length_of_sameShape {as bs : List Arg} (h : Arg.sameShapeAll as bs = true) :
    as.length = bs.length := by
  induction as generalizing bs with
  | nil => rw [Arg.eq_of_sameShape_nil h]
  | cons a as ih =>
    obtain ⟨b, bs, rfl, -, hbs⟩ := Arg.eq_of_sameShape_cons h
    rw [List.length_cons, List.length_cons, ih hbs]

/-- Types of one shape are intersections together. -/
theorem Ty.isInter_of_sameShape {a b : Ty} (h : a.sameShape b = true) : a.isInter = b.isInter := by
  cases a with
  | prim p => rw [Ty.eq_of_sameShape_prim h]
  | null => rw [Ty.eq_of_sameShape_null h]
  | nominal st d as => obtain ⟨_, _, rfl, -⟩ := Ty.eq_of_sameShape_nominal h; rfl
  | array e => obtain ⟨_, rfl, -⟩ := Ty.eq_of_sameShape_array h; rfl
  | inter st ms => obtain ⟨_, _, rfl, -⟩ := Ty.eq_of_sameShape_inter h; rfl
  | var v => obtain ⟨_, rfl, -⟩ := Ty.eq_of_sameShape_var h; rfl

/-- Types of one shape are primitive together. -/
theorem Ty.isPrim_of_sameShape {a b : Ty} (h : a.sameShape b = true) : a.isPrim = b.isPrim := by
  cases a with
  | prim p => rw [Ty.eq_of_sameShape_prim h]
  | null => rw [Ty.eq_of_sameShape_null h]
  | nominal st d as => obtain ⟨_, _, rfl, -⟩ := Ty.eq_of_sameShape_nominal h; rfl
  | array e => obtain ⟨_, rfl, -⟩ := Ty.eq_of_sameShape_array h; rfl
  | inter st ms => obtain ⟨_, _, rfl, -⟩ := Ty.eq_of_sameShape_inter h; rfl
  | var v => obtain ⟨_, rfl, -⟩ := Ty.eq_of_sameShape_var h; rfl

mutual
/-- A copy of a regular type is regular. -/
theorem Ty.Regular.of_sameShape {s : Setting} {k : Fragment} :
    ∀ {a b : Ty}, a.Regular s k → a.sameShape b = true → b.Regular s k
  | .prim p, _, ha, h => Ty.eq_of_sameShape_prim h ▸ ha
  | .null, _, ha, h => Ty.eq_of_sameShape_null h ▸ ha
  | .nominal st d as, _, ha, h => by
    obtain ⟨st', cs, rfl, hargs⟩ := Ty.eq_of_sameShape_nominal h
    rw [Ty.Regular] at ha ⊢
    rw [← Arg.length_of_sameShape hargs]
    exact ⟨ha.1, Arg.RegularAll.of_sameShape ha.2 hargs⟩
  | .array e, _, ha, h => by
    obtain ⟨e', rfl, helem⟩ := Ty.eq_of_sameShape_array h
    rw [Ty.Regular] at ha ⊢
    rw [← Ty.isPrim_of_sameShape helem]
    exact ha.imp_right fun he => Ty.Regular.of_sameShape he helem
  | .inter st ms, _, ha, h => by
    obtain ⟨st', ns, rfl, hmembers⟩ := Ty.eq_of_sameShape_inter h
    rw [Ty.Regular] at ha ⊢
    exact ⟨ha.1, Ty.RegularAll.of_sameShape ha.2 hmembers⟩
  | .var v, _, _, h => by
    obtain ⟨w, rfl, -⟩ := Ty.eq_of_sameShape_var h
    rw [Ty.Regular]
    trivial
termination_by structural a => a

/-- Arguments of the shape of a regular one are regular. -/
theorem Arg.Regular.of_sameShape {s : Setting} {k : Fragment} :
    ∀ {a b : Arg}, a.Regular s k → a.sameShape b = true → b.Regular s k
  | .type t, _, ha, h => by
    obtain ⟨t', rfl, htype⟩ := Arg.eq_of_sameShape_type h
    rw [Arg.Regular] at ha ⊢
    exact Ty.Regular.of_sameShape ha htype
  | .wild u l, _, ha, h => by
    obtain ⟨u', l', rfl, hu, hl⟩ := Arg.eq_of_sameShape_wild h
    rw [Arg.Regular] at ha ⊢
    exact ⟨ha.1, Ty.Regular.of_sameShape ha.2.1 hu, Ty.Regular.of_sameShape ha.2.2 hl⟩
termination_by structural a => a

/-- Members of the shape of regular ones are regular. -/
theorem Ty.RegularAll.of_sameShape {s : Setting} {k : Fragment} : ∀ {as bs : List Ty},
    Ty.RegularAll s k as → Ty.sameShapeAll as bs = true → Ty.RegularAll s k bs
  | [], _, ha, h => Ty.eq_of_sameShape_nil h ▸ ha
  | a :: as, _, ha, h => by
    obtain ⟨b, bs, rfl, hb, hbs⟩ := Ty.eq_of_sameShape_cons h
    rw [Ty.RegularAll] at ha ⊢
    rw [← Ty.isInter_of_sameShape hb]
    exact ⟨⟨ha.1.1, Ty.Regular.of_sameShape ha.1.2 hb⟩, Ty.RegularAll.of_sameShape ha.2 hbs⟩
termination_by structural as => as

/-- Lists of arguments of the shape of regular ones are regular. -/
theorem Arg.RegularAll.of_sameShape {s : Setting} {k : Fragment} : ∀ {as bs : List Arg},
    Arg.RegularAll s k as → Arg.sameShapeAll as bs = true → Arg.RegularAll s k bs
  | [], _, ha, h => Arg.eq_of_sameShape_nil h ▸ ha
  | a :: as, _, ha, h => by
    obtain ⟨b, bs, rfl, hb, hbs⟩ := Arg.eq_of_sameShape_cons h
    rw [Arg.RegularAll] at ha ⊢
    exact ⟨Arg.Regular.of_sameShape ha.1 hb, Arg.RegularAll.of_sameShape ha.2 hbs⟩
termination_by structural as => as
end

/-- Each member of a copy is the copy of a member. -/
theorem Ty.mem_of_sameShape {as bs : List Ty} (h : Ty.sameShapeAll as bs = true) {b : Ty}
    (hb : b ∈ bs) : ∃ a ∈ as, a.sameShape b = true := by
  induction as generalizing bs with
  | nil =>
    rw [Ty.eq_of_sameShape_nil h] at hb
    cases hb
  | cons a as ih =>
    obtain ⟨c, cs, rfl, hc, hcs⟩ := Ty.eq_of_sameShape_cons h
    rcases List.mem_cons.1 hb with rfl | hb
    · exact ⟨a, List.mem_cons_self, hc⟩
    · obtain ⟨x, hx, hsame⟩ := ih hcs hb
      exact ⟨x, List.mem_cons_of_mem _ hx, hsame⟩

/-- What a type consists of has its copy in each copy of the type. -/
theorem Ty.conjunct_of_sameShape {a b c : Ty} (h : a.sameShape b = true) (hc : c ∈ b.conjuncts) :
    ∃ x ∈ a.conjuncts, x.sameShape c = true := by
  cases ha : a.isInter with
  | true =>
    cases a with
    | inter st ms =>
      obtain ⟨st', ns, rfl, hmembers⟩ := Ty.eq_of_sameShape_inter h
      exact Ty.mem_of_sameShape hmembers hc
    | _ => cases ha
  | false =>
    rw [Ty.conjuncts_of_not_inter ((Ty.isInter_of_sameShape h).symm.trans ha),
      List.mem_singleton] at hc
    rw [Ty.conjuncts_of_not_inter ha, hc]
    exact ⟨a, List.mem_singleton.2 rfl, h⟩

/-- The arguments of a copy are copies of the arguments, one by one. -/
theorem Arg.sameShape_getElem? {as bs : List Arg} (h : Arg.sameShapeAll as bs = true) {i : Nat}
    {a b : Arg} (ha : as[i]? = some a) (hb : bs[i]? = some b) : a.sameShape b = true := by
  induction as generalizing bs i with
  | nil => cases ha
  | cons x as ih =>
    cases bs with
    | nil => cases hb
    | cons y bs =>
      rw [Arg.sameShapeAll, Bool.and_eq_true] at h
      cases i with
      | zero =>
        cases ha
        cases hb
        exact h.1
      | succ i => exact ih h.2 ha hb

namespace Setting

open Query

variable {s : Setting} {m m' : Memory} {I : Memory → Prop} {depth : Nat} {trail : Trail} {a b : Ty}

/-! ### Going down to a lower bound -/

/-- Going down to the lower bound of a captured variable is granted where comparing with that bound is.
-/
theorem descends_granted (hI : ∀ m₁, I m₁ → m.Since s m₁) {i : Nat} (hi : i ≤ m.lastCaptured)
    (htrail : (.captured i, .lower) ∉ trail)
    (h : Grants I (s.belowWithin depth ((.captured i, .lower) :: trail) a (m.lower i))) :
    Grants I (s.descends depth trail a (.var (.captured i))) := by
  intro m₁ r m' hm₁ hr
  rw [descends, Var.key, List.contains_eq_mem, decide_eq_false htrail, if_neg Bool.false_ne_true] at hr
  obtain ⟨l, m₂, hl, hr⟩ := answers_bind.1 hr
  obtain ⟨m₃, m₄, hget, hl⟩ := answers_bind.1 hl
  obtain ⟨rfl, rfl⟩ := answers_get.1 hget
  obtain ⟨rfl, rfl⟩ := answers_pure.1 hl
  rw [(hI _ hm₁).lower hi] at hr
  exact h m₂ r m' hm₁ hr

/-- Whatever else is tried first, the lower bound of a variable on the right is tried in the end. -/
theorem grants_of_descends (hI : s.Keeps I) (ha : ∀ st, a ≠ .inter st []) {w : Var}
    (h : Grants I (s.descends depth trail a (.var w))) :
    Grants I (s.belowWithin (depth + 1) trail a (.var w)) := by
  by_cases heq : a = .var w
  · rw [heq, belowWithin_self]
    exact .pure_true
  cases a with
  | null =>
    rw [belowWithin_of_null]
    exact .pure_true
  | nominal st d as =>
    rw [belowWithin_nominal_var]
    exact h
  | inter st ms =>
    cases ms with
    | nil => exact absurd rfl (ha st)
    | cons c ms =>
      rw [belowWithin_inter rfl]
      exact .either_right (.any (fun _ => hI.belowWithin _ _ _ _) _) h
  | var v =>
    rw [belowWithin_var rfl heq]
    split
    · exact .pure_true
    · split
      · exact h
      · exact .either_right ((upper_preserves v).bind fun _ => hI.belowWithin _ _ _ _) h
  | prim p =>
    rw [belowWithin.eq_def]
    dsimp only
    rw [if_neg (by simp), if_neg heq]
    exact h
  | array e =>
    rw [belowWithin.eq_def]
    dsimp only
    rw [if_neg (by simp), if_neg heq]
    exact h

/-! ### Copies -/

/-- Comparing a type with a copy does not answer no, with nesting up to a depth. -/
def GrantsCopies (s : Setting) (depth : Nat) : Prop :=
  ∀ (trail : Trail) (m : Memory) (a b : Ty), s.Stands m a → s.Stands m b → a.sameShape b = true →
    Grants (m.Since s) (s.belowWithin depth trail a b)

/-- What a standing type consists of stands. -/
theorem Stands.conjunct {c : Ty} (h : s.Stands m a) (hc : c ∈ a.conjuncts) : s.Stands m c := by
  refine ⟨(Ty.isInter_eq_false_of_mem_conjuncts h.regular hc).2, fun v hv => h.vars v ?_⟩
  rw [← Ty.varsAll_conjuncts, Ty.mem_varsAll]
  exact ⟨c, hc, hv⟩

/-- **A copy of the lower bound of a captured variable is below the variable.** -/
theorem lower_granted (ih : ∀ n ≤ depth, s.GrantsCopies n) {i : Nat} (hi : i ≤ m.lastCaptured)
    (ha : s.Stands m a) (hl : s.Stands m (m.lower i)) (h : a.sameShape (m.lower i) = true) :
    Grants (m.Since s) (s.belowWithin depth [] a (.var (.captured i))) := by
  refine grants_of_succ fun n hn => ?_
  by_cases htop : ∃ st, a = .inter st []
  · -- the top type is compared as the top declaration, which is no copy of the lower bound
    obtain ⟨st, rfl⟩ := htop
    rw [belowWithin_top rfl]
    refine grants_of_succ fun k _ => ?_
    rw [Ty.object, belowWithin_nominal_var]
    refine descends_granted (fun _ => id) hi List.not_mem_nil (grants_of_succ fun k _ => ?_)
    obtain ⟨st', ns, hlower, hmembers⟩ := Ty.eq_of_sameShape_inter h
    rw [hlower, Ty.eq_of_sameShape_nil hmembers, belowWithin_members (by simp) (by simp)]
    exact .pure_true
  · refine grants_of_descends (keeps_since s m) (fun st h => htop ⟨st, h⟩) ?_
    exact descends_granted (fun _ => id) hi List.not_mem_nil (ih n (by omega) _ m a _ ha hl h)

/-- Two bounds put together are below each copy of a conjunct of one of them. -/
theorem bound_granted (hs : s.Upright) (ih : ∀ n ≤ depth, s.GrantsCopies n) {u bound x c : Ty}
    {site : Site} {ks : List VarKey} (hx : x ∈ u.conjuncts ∨ x ∈ bound.conjuncts)
    (hstands : s.Stands m x) (hc : s.Stands m c) (hflat : c.isInter = false) (h : x.sameShape c = true)
    (hrises : s.Rises m ks (Ty.meetBounds site u bound))
    (htrail : ∀ key, (key, Side.upper) ∈ trail → key ∈ ks) :
    Grants (m.Since s) (s.belowWithin depth trail (Ty.meetBounds site u bound) c) := by
  have hcopy : ∀ n ≤ depth, Grants (m.Since s) (s.belowWithin n trail x c) := fun n hn =>
    ih n hn trail m x c hstands hc h
  rcases Ty.conjunct_meetBounds_or_isTop site hx with hmem | htop
  · generalize Ty.meetBounds site u bound = t at hmem
    cases hinter : t.isInter with
    | true =>
      cases t with
      | inter st ms => exact grants_of_succ fun n hn =>
          grants_of_member (keeps_since s m) hmem hflat (hcopy n (by omega))
      | _ => cases hinter
    | false =>
      rw [Ty.conjuncts_of_not_inter hinter, List.mem_singleton] at hmem
      exact hmem ▸ hcopy depth (Nat.le_refl _)
  · -- then the copy is the top declaration, too
    cases x with
    | nominal st d as =>
      cases as with
      | cons _ _ => cases htop
      | nil =>
        rw [Ty.isTop, beq_iff_eq] at htop
        rw [htop] at h
        obtain ⟨st', cs, rfl, hargs⟩ := Ty.eq_of_sameShape_nominal h
        rw [Arg.eq_of_sameShape_nil hargs]
        exact hrises.granted hs.arrays htrail st'
    | inter st ms => cases (Ty.isInter_of_sameShape h).trans hflat
    | _ => cases htop

/-- **A captured variable is below a copy of one of the two bounds that its own was put together from.** -/
theorem upper_granted (hs : s.Upright) (ih : ∀ n ≤ depth, s.GrantsCopies n) {i : Nat}
    (hi : i ≤ m.lastCaptured) {u bound w w' : Ty} {site : Site}
    (hw : ∀ c ∈ w.conjuncts, c ∈ u.conjuncts ∨ c ∈ bound.conjuncts) (hstands : s.Stands m w)
    (hstands' : s.Stands m w') (h : w.sameShape w' = true)
    (hupper : m.upper i = Ty.meetBounds site u bound) (hrises : s.Rises m [.captured i] (m.upper i)) :
    Grants (m.Since s) (s.belowWithin depth [] (.var (.captured i)) w') := by
  have hconjunct : ∀ n ≤ depth, ∀ c ∈ w'.conjuncts,
      Grants (m.Since s) (s.belowWithin n [] (.var (.captured i)) c) := by
    intro n hn c hc
    obtain ⟨x, hx, hsame⟩ := Ty.conjunct_of_sameShape h hc
    have hflat := (Ty.isInter_eq_false_of_mem_conjuncts hstands'.regular hc).1
    refine grants_of_succ fun k hk => ?_
    refine grants_of_captured (fun _ => id) hi hflat List.not_mem_nil ?_
    rw [hupper] at hrises ⊢
    refine bound_granted hs (fun j hj => ih j (by omega)) (hw x hx) (hstands.conjunct hx)
      (hstands'.conjunct hc) hflat hsame hrises fun key hkey => ?_
    obtain hkey := List.mem_singleton.1 hkey
    injection hkey with hkey
    exact hkey ▸ List.mem_singleton.2 rfl
  cases hinter : w'.isInter with
  | true =>
    cases w' with
    | inter st ms =>
      refine grants_of_succ fun n hn => ?_
      rw [belowWithin_members (by simp) (by simp)]
      exact .all (fun c => (keeps_since s m).belowWithin _ _ _ c) fun c hc =>
        hconjunct n (by omega) c hc
    | _ => cases hinter
  | false =>
    refine hconjunct depth (Nat.le_refl _) w' ?_
    rw [Ty.conjuncts_of_not_inter hinter]
    exact List.mem_singleton.2 rfl

/-- Containment of lists of arguments is granted where it is for each pair. -/
theorem containsAllBy_granted {sub : Ty → Ty → Query Bool} (hI : ∀ x y, Preserves I (sub x y)) :
    ∀ {outers inners : List Arg}, outers.length = inners.length →
      (∀ (i : Nat) o c, outers[i]? = some o → inners[i]? = some c → Grants I (containsBy sub o c)) →
        Grants I (containsAllBy sub outers inners)
  | [], [], _, _ => .pure_true
  | _ :: _, _ :: _, hlen, h =>
    .both (containsBy_preserves hI _ _) (h 0 _ _ rfl rfl)
      (containsAllBy_granted hI (by simpa using hlen) fun i o c ho hc => h (i + 1) o c ho hc)

/-- The types in the arguments of a standing type stand. -/
theorem Stands.part {st : Site} {d : String} {as : List Arg} (h : s.Stands m (.nominal st d as))
    {x : Arg} (hx : x ∈ as) {t : Ty} (ht : t ∈ x.parts) : s.Stands m t := by
  have hreg := h.regular
  rw [Ty.Regular] at hreg
  refine ⟨(Arg.regularAll_iff.1 hreg.2 x hx).parts ht, fun v hv => h.vars v ?_⟩
  rw [Ty.vars, Arg.mem_varsAll]
  exact ⟨x, hx, Arg.mem_vars_of_parts ht hv⟩

/-- What is known of the variable that is captured for a wildcard among standing arguments. -/
theorem Captures.argument (hs : s.Upright) {site : Site} {d : String} {as : List Arg}
    {cs : List Captured} (ha : s.Stands m (.nominal site d as)) {l : Lineage}
    (hl : s.lineageOf d = some l) (hlen : as.length = l.params.length)
    (hcs : s.Captures ⟨site, d, as⟩ m m' cs) {i : Nat} {u lo : Ty} (hi : as[i]? = some (.wild u lo)) :
    ∃ p x bsite bound, l.params[i]? = some p ∧
      (captureArgs m.lastCaptured as)[i]? = some (.type (.var (.captured x))) ∧
      m.lastCaptured < x ∧ x ≤ m'.lastCaptured ∧ m'.lower x = lo ∧
      m'.upper x = Ty.meetBounds bsite u bound ∧ Ty.Replaced (Subst.zip l.params
        ((captureArgs m.lastCaptured as).filterMap Arg.type?)) (s.catalog.upper p) bound ∧
      s.Rises m' [.captured x] (m'.upper x) := by
  obtain ⟨p, hp⟩ : ∃ p, l.params[i]? = some p :=
    ⟨_, List.getElem?_eq_getElem (hlen ▸ (List.getElem?_eq_some_iff.1 hi).1)⟩
  rcases getElem?_captureArgs m.lastCaptured hp hi with ⟨_, h, -⟩ | ⟨_, _, j, heq, hc, hj⟩
  · cases h
  cases heq
  obtain ⟨e, he, hparams⟩ := hs.of_lineage hl
  have hps : s.paramsOf d = l.params := paramsOf_eq hl
  have hrises := hcs.rises hs he (hps.trans hparams) (hlen.trans (congrArg _ hparams))
    (fun y hy t ht => ha.part hy ht) (hparams ▸ hj) fun _ hk => absurd hk List.not_mem_nil
  obtain ⟨hlower, bsite, bound, hrep, hupper⟩ := hcs.bounds (hps.symm ▸ hj)
  cases hrises with
  | captured hle _ hrises =>
    exact ⟨p, _, bsite, bound, hp, hc, by omega, hle, hlower, hupper, hps ▸ hrep, hrises⟩

/-- Each argument of a copy contains the argument that it is a copy of, after capture. -/
theorem argument_granted (hs : s.Upright) (ih : ∀ n ≤ depth, s.GrantsCopies n) {sa sb : Site}
    {d : String} {as bs : List Arg} {cs : List Captured} (ha : s.Stands m (.nominal sa d as))
    (hb : s.Stands m (.nominal sb d bs)) (h : Arg.sameShapeAll as bs = true) {l : Lineage}
    (hl : s.lineageOf d = some l) (hlen : as.length = l.params.length)
    (hcs : s.Captures ⟨sa, d, as⟩ m m' cs) {i : Nat} {o c : Arg} (ho : bs[i]? = some o)
    (hc : (captureArgs m.lastCaptured as)[i]? = some c) :
    Grants (m'.Since s) (containsBy (s.belowWithin depth []) o c) := by
  obtain ⟨-, -, ⟨t, hx, rfl⟩ | ⟨u, lo, -, hx, -⟩⟩ := captureArgs_cases hlen hc
  · obtain ⟨t', rfl, htype⟩ := Arg.eq_of_sameShape_type (Arg.sameShape_getElem? h hx ho)
    rw [containsBy, equivalentBy, if_pos (Ty.equal_of_sameShape htype)]
    exact .pure_true
  · obtain ⟨u', lo', rfl, hup, hlow⟩ := Arg.eq_of_sameShape_wild (Arg.sameShape_getElem? h hx ho)
    have hstands : ∀ {t : Ty}, t ∈ (Arg.wild u lo).parts → s.Stands m' t := fun ht =>
      (ha.part (List.mem_of_getElem? hx) ht).since hcs.since
    have hstands' : ∀ {t : Ty}, t ∈ (Arg.wild u' lo').parts → s.Stands m' t := fun ht =>
      (hb.part (List.mem_of_getElem? ho) ht).since hcs.since
    obtain ⟨p, x, site, bound, -, hcaptured, -, hle, hlower, hupper, -, hrises⟩ :=
      hcs.argument hs ha hl hlen hx
    rw [hc] at hcaptured
    cases hcaptured
    refine .both ((keeps_since s m').belowWithin depth [] _ _) (lower_granted ih hle
      (hstands' (List.mem_cons_of_mem _ List.mem_cons_self)) ?_ ?_)
      (upper_granted hs ih hle (fun _ => .inl) (hstands List.mem_cons_self)
        (hstands' List.mem_cons_self) hup hupper hrises)
    · rw [hlower]
      exact hstands (List.mem_cons_of_mem _ List.mem_cons_self)
    · rw [hlower]
      exact Ty.sameShape_symm hlow

/-- A comparison of two applications of one declaration does not answer no if the one of the arguments does
not, after capture. -/
theorem own_granted (hs : s.Upright) {sub : Ty → Ty → Query Bool} {sa sb : Site} {d : String}
    {as bs : List Arg} {l : Lineage} (hl : s.lineageOf d = some l)
    (hcount : as.length = 0 ∨ as.length = l.params.length) (hlength : bs.length = as.length)
    (hI : ∀ m, I m → m.Faithful s)
    (h : as.length = l.params.length → ∀ m n m', I m → (s.capture ⟨sa, d, as⟩).Answers m n m' →
      ∀ r m'', (containsAllBy sub bs n.args).Answers m' r m'' → r = true) :
    Grants I (s.nominalBelowBy sub ⟨sa, d, as⟩ ⟨sb, d, bs⟩) := by
  intro m r m' hm hask
  obtain ⟨i, m₁, hi, hr⟩ := answers_bind.1 hask
  rw [inherits, if_pos rfl] at hi
  obtain ⟨rfl, rfl⟩ := answers_pure.1 hi
  rw [if_pos rfl] at hr
  split at hr
  · exact (answers_pure.1 hr).1
  next hbs =>
  have hne : as ≠ [] := by
    rintro rfl
    exact hbs (List.isEmpty_iff.2 (List.length_eq_zero_iff.1 hlength))
  have hlen : as.length = l.params.length :=
    hcount.resolve_left fun h0 => hne (List.length_eq_zero_iff.1 h0)
  have hobject : d ≠ objectName := by
    rintro rfl
    rw [hs.plainObject] at hl
    cases hl
    exact hne (List.length_eq_zero_iff.1 hlen)
  obtain ⟨raw, m₂, hraw, hclimb⟩ := answers_bind.1 hr
  rw [isRaw, if_neg (by simpa using hne)] at hraw
  obtain ⟨rfl, rfl⟩ := answers_pure.1 hraw
  rw [if_neg Bool.false_ne_true] at hclimb
  obtain ⟨found, m₃, hsuper, hcontains⟩ := answers_bind.1 hclimb
  obtain ⟨n, m₄, hcapture, hfound⟩ := answers_bind.1 hsuper
  obtain ⟨hn, -⟩ := capture_fills (hI _ hm) hcapture
  -- seen as its own declaration, the captured type is what it is
  rw [seenAs, if_neg hobject, climb, if_pos (congrArg Nominal.decl hn)] at hfound
  obtain ⟨rfl, rfl⟩ := answers_pure.1 hfound
  dsimp only at hcontains
  rw [if_pos (by rw [hn, length_captureArgs, hlength])] at hcontains
  exact h hlen _ n _ hm hcapture r m' hcontains

/-- **A comparison of an applied declaration with a copy does not answer no**, if none of copies of
its parts does. -/
theorem nominal_copy_granted (hs : s.Upright) (ih : ∀ n ≤ depth, s.GrantsCopies n) {sa sb : Site}
    {d : String} {as bs : List Arg} (ha : s.Stands m (.nominal sa d as))
    (hb : s.Stands m (.nominal sb d bs)) (h : Arg.sameShapeAll as bs = true) :
    Grants (m.Since s) (s.nominalBelowBy (s.belowWithin depth []) ⟨sa, d, as⟩ ⟨sb, d, bs⟩) := by
  have hlength := Arg.length_of_sameShape h
  have hreg := ha.regular
  rw [Ty.Regular] at hreg
  obtain ⟨⟨l, hl, hcount⟩, -⟩ := hreg
  refine own_granted hs hl hcount hlength.symm (fun _ h => h.faithful)
    fun hlen m₁ n m₂ hm₁ hcapture r m' => ?_
  obtain ⟨rfl, ⟨cs, hcs⟩, -⟩ := capture_fills hm₁.faithful hcapture
  exact containsAllBy_granted ((keeps_since s m₂).belowWithin depth [])
    (hlength.symm.trans (length_captureArgs ..).symm) (fun i o c ho hc =>
      argument_granted hs ih (ha.since hm₁) (hb.since hm₁) h hl hlen hcs ho hc) m₂ r m'
      (.refl hcs.faithful)

/-- **No comparison of a type with a copy answers no**, if going up from their variables comes to an
end. -/
theorem copy_granted (hs : s.Upright) (depth : Nat) : s.GrantsCopies depth := by
  induction depth using Nat.strongRecOn with
  | ind depth ih =>
    intro trail m a b ha hb h
    refine grants_of_succ fun n hn => ?_
    have ih : ∀ k ≤ n, s.GrantsCopies k := fun k hk => ih k (by omega)
    by_cases heq : a = b
    · rw [heq, belowWithin_self]
      exact .pure_true
    cases a with
    | prim p => cases ha.regular.not_prim
    | null =>
      rw [belowWithin_of_null]
      exact .pure_true
    | nominal sa d as =>
      obtain ⟨sb, bs, rfl, hargs⟩ := Ty.eq_of_sameShape_nominal h
      rw [belowWithin_nominal heq]
      exact nominal_copy_granted hs ih ha hb hargs
    | array e =>
      obtain ⟨e', rfl, helem⟩ := Ty.eq_of_sameShape_array h
      have hne : e ≠ e' := fun hsame => heq (by rw [hsame])
      rw [belowWithin_array hne, arrayBelowBy, ← Ty.isPrim_of_sameShape helem, Bool.or_self]
      have hreg := ha.regular
      have hreg' := hb.regular
      rw [Ty.Regular] at hreg hreg'
      cases hprim : e.isPrim with
      | true =>
        cases e with
        | prim p => exact absurd (Ty.eq_of_sameShape_prim helem).symm hne
        | _ => cases hprim
      | false =>
        rw [if_neg Bool.false_ne_true]
        rw [hprim] at hreg
        rw [← Ty.isPrim_of_sameShape helem, hprim] at hreg'
        exact ih n (Nat.le_refl n) [] m e e' ⟨hreg.resolve_left Bool.false_ne_true, ha.vars⟩
          ⟨hreg'.resolve_left Bool.false_ne_true, hb.vars⟩ helem
    | inter st ms =>
      obtain ⟨st', ns, rfl, hmembers⟩ := Ty.eq_of_sameShape_inter h
      rw [belowWithin_members (by simp) heq]
      refine .all (fun c => (keeps_since s m).belowWithin _ _ _ c) fun c hc => ?_
      obtain ⟨x, hx, hsame⟩ := Ty.mem_of_sameShape hmembers hc
      refine grants_of_succ fun k hk => grants_of_member (keeps_since s m) hx
        (Ty.isInter_eq_false_of_mem_conjuncts hb.regular hc).1 ?_
      exact ih k (by omega) trail m x c (ha.conjunct hx) (hb.conjunct hc) hsame
    | var v =>
      have hequal := Ty.equal_of_sameShape h
      obtain ⟨w, rfl, -⟩ := Ty.eq_of_sameShape_var h
      rw [belowWithin_var rfl heq, if_pos hequal]
      exact .pure_true

/-- **A type is never denied to be below an equal copy.** The type passes the check, its variables are
parameters of declarations, and primitives stand in it as a whole or as components of arrays. The
variables of the copy may be others with the same keys, if going up from them comes to an end. -/
theorem below_of_equal (hs : s.Upright) {t t' : Ty} (hflat : t.isFlat = true) (haccepted : s.Accepts t)
    (hprims : t.isPrim = true ∨ t.sparing = true)
    (hvars : ∀ v ∈ t.vars, ∃ d ∈ s.catalog.decls, ∃ p ∈ d.vars, v = .declared p)
    (hequal : t.equal t' = true) (hm : m.Faithful s)
    (hrises : ∀ v ∈ t'.vars, s.Rises m [] (.var v)) {n : Nat} {r : Bool}
    (h : ((s.withDepth n).below t t').Answers m r m') : r = true := by
  rw [below_withDepth] at h
  rw [Ty.equal, Bool.and_eq_true] at hequal
  suffices hgrants : Grants (m.Since s) (s.belowWithin n [] t t') from
    hgrants m r m' (.refl hm) h
  rcases hprims with hprim | hsparing
  · cases t with
    | prim p =>
      refine grants_of_succ fun k _ => ?_
      rw [Ty.eq_of_sameShape_prim hequal.2, belowWithin_self]
      exact .pure_true
    | _ => cases hprim
  · have hregular := haccepted.regular hflat hsparing
    refine copy_granted hs n [] m t t' ⟨hregular, fun v hv => ?_⟩
      ⟨hregular.of_sameShape hequal.2, hrises⟩ hequal.2
    obtain ⟨d, hd, p, hp, rfl⟩ := hvars v hv
    exact rises_param hs hd hp fun _ hk => absurd hk List.not_mem_nil

end Setting

/-- Beside the standard declarations: `Node` has a parameter `T` bounded by `Node<T>`, and the first
parameter of `Pair` is bounded by the second one. -/
def Catalog.pairing : Catalog := .extended [
  { name := "Node", params := [⟨"T", "Node<T>"⟩] },
  { name := "Pair", params := [⟨"A", "B"⟩, ⟨"B", ""⟩] }]

namespace Setting

open Query

/-- `Map<? extends Node<?>, ? super Pair<?, T>> & T[]` and a copy, which has a variable bounded by
`Object` in the place of the parameter `T` of `Node`. -/
theorem below_of_equal_pairing :
    let s : Setting := { catalog := { Catalog.pairing with free := [.object] } }
    let type (n : Nat) (v : TypeVar) : Ty := .inter ⟨.given n, [0]⟩ [
      .nominal ⟨.given n, [1]⟩ "Map" [
        .wild (.nominal ⟨.given n, [2]⟩ "Node" [.wild .object .null]) .null,
        .wild .object (.nominal ⟨.given n, [3]⟩ "Pair"
          [.wild .object .null, .type (.var (.declared v))])],
      .array (.var (.declared v))]
    let t := type 0 ⟨"Node", "T", .param 0⟩
    let t' := type 1 ⟨"Node", "T", .free 0⟩
    s.Upright ∧ t.isFlat = true ∧ s.Accepts t ∧ t.sparing = true ∧
      (∀ v ∈ t.vars, ∃ d ∈ s.catalog.decls, ∃ p ∈ d.vars, v = .declared p) ∧ t.equal t' = true ∧
      (∀ v ∈ t'.vars, s.Rises {} [] (.var v)) ∧
      (∃ r m', ((s.withDepth 20).below t t').Answers {} r m') ∧
      ∀ r m', ((s.withDepth 20).below t t').Answers {} r m' → r = true := by
  intro s type t t'
  have hall : (∀ d ∈ Catalog.pairing.decls, ∀ p ∈ d.params, p.upper.sparing = true) ∧
      t.isFlat = true ∧ s.acceptsWithin 20 t = true ∧ t.sparing = true ∧
      (∀ v ∈ t.vars, ∃ d ∈ s.catalog.decls, ∃ p ∈ d.vars, v = .declared p) ∧ t.equal t' = true ∧
      (∀ v ∈ t'.vars, v = .declared ⟨"Node", "T", .free 0⟩) ∧
      (((s.withDepth 20).below t t').outcome {}).1.map (fun r => r) = .ok true := by
    decide +kernel
  obtain ⟨hbounds, hflat, haccepts, hsparing, hvars, hequal, hcopied, hyes⟩ := hall
  have hs : s.Upright := .of_grown (Catalog.grown_extended _) _ hbounds (by decide)
  have haccepted := Accepts.of_within haccepts
  have hrises : ∀ v ∈ t'.vars, s.Rises {} [] (.var v) := by
    intro v hv
    obtain rfl := hcopied v hv
    exact .declared List.not_mem_nil (.nominal _ _ _ _)
  refine ⟨hs, hflat, haccepted, hsparing, hvars, hequal, hrises, ?_, fun r m' h =>
    below_of_equal hs hflat haccepted (.inr hsparing) hvars hequal (Memory.faithful_empty s) hrises h⟩
  obtain ⟨r, m', h, -⟩ := exists_answers hyes
  exact ⟨r, m', h⟩

/-- **A variable that has the key of a parameter and is bounded by that parameter spoils a copy:**
`List<? super Pair<?, E>>` is denied to be below an equal type in which such a variable stands for
`E`. -/
theorem below_of_equal_refuted :
    let s : Setting :=
      { catalog := { Catalog.pairing with free := [.var (.declared ⟨"ArrayList", "E", .param 0⟩)] } }
    let list (n : Nat) (v : TypeVar) : Ty := .nominal ⟨.given n, [0]⟩ "List" [
      .wild .object (.nominal ⟨.given n, [1]⟩ "Pair"
        [.wild .object .null, .type (.var (.declared v))])]
    let t := list 0 ⟨"ArrayList", "E", .param 0⟩
    let t' := list 1 ⟨"ArrayList", "E", .free 0⟩
    s.Upright ∧ t.isFlat = true ∧ s.Accepts t ∧ t.sparing = true ∧
      (∀ v ∈ t.vars, ∃ d ∈ s.catalog.decls, ∃ p ∈ d.vars, v = .declared p) ∧ t.equal t' = true ∧
      ∃ r m', (s.below t t').Answers {} r m' ∧ r ≠ true := by
  intro s list t t'
  have hall : (∀ d ∈ Catalog.pairing.decls, ∀ p ∈ d.params, p.upper.sparing = true) ∧
      t.isFlat = true ∧ s.acceptsWithin 20 t = true ∧ t.sparing = true ∧
      (∀ v ∈ t.vars, ∃ d ∈ s.catalog.decls, ∃ p ∈ d.vars, v = .declared p) ∧ t.equal t' = true ∧
      ((s.below t t').outcome {}).1.map (fun r => !r) = .ok true := by
    decide +kernel
  obtain ⟨hbounds, hflat, haccepts, hsparing, hvars, hequal, hno⟩ := hall
  refine ⟨.of_grown (Catalog.grown_extended _) _ hbounds (by decide), hflat, .of_within haccepts,
    hsparing, hvars, hequal, ?_⟩
  obtain ⟨r, m', h, hr⟩ := exists_answers hno
  exact ⟨r, m', h, by simpa using hr⟩

end Setting
end Generics
