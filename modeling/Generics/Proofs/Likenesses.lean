/-
# Types that are alike

When a question is asked twice, what is captured and built on the way gets numbers of its own each time.
A `Pairing` says which numbers of one run stand for which of another, and which variables may be met. Two
types are alike (`Ty.Like`) if they agree in every part but for paired numbers, in variables and in sites.

Where numbers are paired one to one, alike types cannot be told apart: neither by identity
(`Ty.eq_iff_of_like`) nor by equality (`Ty.equal_of_like`). Intersecting, substituting and capturing
lead from alike types to alike types.
-/

import Generics.Proofs.Reflexivity
import Generics.Proofs.Captures

namespace Generics

/-- What of one run stands for what of another, and what may be met. -/
structure Pairing where
  /-- The declared variables that may be met; each stands for itself. -/
  declared : TypeVar → Prop
  /-- The captured variables of the first run that may be met. -/
  seen : Nat → Prop
  /-- Which numbers of captured variables stand for which. -/
  number : Nat → Nat → Prop
  /-- Which numbers of types built stand for which. -/
  built : Nat → Nat → Prop

namespace Pairing

/-- Which variables stand for which. -/
def var (ρ : Pairing) : Var → Var → Prop
  | .declared v, w => w = .declared v ∧ ρ.declared v
  | .captured i, w => ∃ j, w = .captured j ∧ ρ.seen i ∧ ρ.number i j

/-- Which places stand for which. -/
def place (ρ : Pairing) : Place → Place → Prop
  | .capture i, q => ∃ j, q = .capture j ∧ ρ.number i j
  | .built i, q => ∃ j, q = .built j ∧ ρ.built i j
  | p, q => q = p

/-- Which sites stand for which. -/
def site (ρ : Pairing) (a b : Site) : Prop := ρ.place a.place b.place ∧ b.path = a.path

/-- Captured variables are paired one to one. -/
def Sharp (ρ : Pairing) : Prop := Relator.BiUnique ρ.number

/-- All numbers are paired one to one. -/
structure Exact (ρ : Pairing) : Prop where
  number : ρ.Sharp
  built : Relator.BiUnique ρ.built

end Pairing

mutual
/-- The types agree in every part, up to what stands for what. -/
def Ty.Like (ρ : Pairing) : Ty → Ty → Prop
  | .prim p, b => b = .prim p
  | .null, b => b = .null
  | .nominal s d as, b => ∃ s' as', b = .nominal s' d as' ∧ ρ.site s s' ∧ Arg.LikeAll ρ as as'
  | .array e, b => ∃ e', b = .array e' ∧ e.Like ρ e'
  | .inter s ms, b => ∃ s' ms', b = .inter s' ms' ∧ ρ.site s s' ∧ Ty.LikeAll ρ ms ms'
  | .var v, b => ∃ w, b = .var w ∧ ρ.var v w

/-- The arguments agree in every part. -/
def Arg.Like (ρ : Pairing) : Arg → Arg → Prop
  | .type t, b => ∃ t', b = .type t' ∧ t.Like ρ t'
  | .wild u l, b => ∃ u' l', b = .wild u' l' ∧ u.Like ρ u' ∧ l.Like ρ l'

/-- The types agree in every part, one by one. -/
def Ty.LikeAll (ρ : Pairing) : List Ty → List Ty → Prop
  | [], bs => bs = []
  | a :: as, bs => ∃ b bs', bs = b :: bs' ∧ a.Like ρ b ∧ Ty.LikeAll ρ as bs'

/-- The arguments agree in every part, one by one. -/
def Arg.LikeAll (ρ : Pairing) : List Arg → List Arg → Prop
  | [], bs => bs = []
  | a :: as, bs => ∃ b bs', bs = b :: bs' ∧ a.Like ρ b ∧ Arg.LikeAll ρ as bs'
end

/-- The applied declarations agree in every part. -/
structure Nominal.Like (ρ : Pairing) (n n' : Nominal) : Prop where
  site : ρ.site n.site n'.site
  decl : n'.decl = n.decl
  args : List.Forall₂ (Arg.Like ρ) n.args n'.args

section Identity

variable {ρ : Pairing}

/-- Paired variables are the same on one side if they are on the other. -/
theorem Pairing.Sharp.var_eq (hρ : ρ.Sharp) {v v' w w' : Var} (hv : ρ.var v v') (hw : ρ.var w w') :
    v = w ↔ v' = w' := by
  cases v with
  | declared v =>
    obtain ⟨rfl, -⟩ := hv
    cases w with
    | declared w =>
      obtain ⟨rfl, -⟩ := hw
      exact Iff.rfl
    | captured j =>
      obtain ⟨j', rfl, -⟩ := hw
      simp
  | captured i =>
    obtain ⟨i', rfl, -, hi⟩ := hv
    cases w with
    | declared w =>
      obtain ⟨rfl, -⟩ := hw
      simp
    | captured j =>
      obtain ⟨j', rfl, -, hj⟩ := hw
      rw [Var.captured.injEq, Var.captured.injEq]
      exact Relator.rel_eq hρ hi hj

/-- Paired variables have the same key on one side if they have on the other. -/
theorem Pairing.Sharp.key_eq (hρ : ρ.Sharp) {v v' w w' : Var} (hv : ρ.var v v') (hw : ρ.var w w') :
    v.key = w.key ↔ v'.key = w'.key := by
  cases v with
  | declared v =>
    obtain ⟨rfl, -⟩ := hv
    cases w with
    | declared w =>
      obtain ⟨rfl, -⟩ := hw
      exact Iff.rfl
    | captured j =>
      obtain ⟨j', rfl, -⟩ := hw
      simp [Var.key, TypeVar.key]
  | captured i =>
    obtain ⟨i', rfl, -, hi⟩ := hv
    cases w with
    | declared w =>
      obtain ⟨rfl, -⟩ := hw
      simp [Var.key, TypeVar.key]
    | captured j =>
      obtain ⟨j', rfl, -, hj⟩ := hw
      simp only [Var.key, VarKey.captured.injEq]
      exact Relator.rel_eq hρ hi hj

/-- Paired places are the same on one side if they are on the other. -/
theorem Pairing.Exact.place_eq (hρ : ρ.Exact) {p p' q q' : Place} (hp : ρ.place p p') (hq : ρ.place q q') :
    p = q ↔ p' = q' := by
  have hnumber : ∀ i i' j j', ρ.number i i' → ρ.number j j' → (i = j ↔ i' = j') :=
    fun _ _ _ _ hi hj => Relator.rel_eq hρ.number hi hj
  have hbuilt : ∀ i i' j j', ρ.built i i' → ρ.built j j' → (i = j ↔ i' = j') :=
    fun _ _ _ _ hi hj => Relator.rel_eq hρ.built hi hj
  cases p <;> cases q <;> grind [Pairing.place]

/-- Paired sites are the same on one side if they are on the other. -/
theorem Pairing.Exact.site_eq (hρ : ρ.Exact) {a a' b b' : Site} (ha : ρ.site a a') (hb : ρ.site b b') :
    a = b ↔ a' = b' := by
  have hplace := hρ.place_eq ha.1 hb.1
  have hpath := ha.2
  have hway := hb.2
  cases a
  cases a'
  cases b
  cases b'
  simp_all

mutual
/-- Alike types agree on which types are the same occurrence. -/
theorem Ty.sameOccurrence_like (hρ : ρ.Exact) : ∀ {a a' b b' : Ty}, a.Like ρ a' → b.Like ρ b' →
    a.sameOccurrence b = a'.sameOccurrence b'
  | .prim p, _, b, _, ha, hb => by cases b <;> grind [Ty.Like, Ty.sameOccurrence]
  | .null, _, b, _, ha, hb => by cases b <;> grind [Ty.Like, Ty.sameOccurrence]
  | .nominal s d as, _, b, b', ha, hb => by
    rw [Ty.Like] at ha
    obtain ⟨s', as', rfl, hs, has⟩ := ha
    cases b with
    | nominal st e bs =>
      rw [Ty.Like] at hb
      obtain ⟨st', bs', rfl, hst, hbs⟩ := hb
      have hsite : (s == st) = (s' == st') := by
        rw [Bool.eq_iff_iff, beq_iff_eq, beq_iff_eq, hρ.site_eq hs hst]
      rw [Ty.sameOccurrence, Ty.sameOccurrence, Arg.sameOccurrenceAll_like hρ has hbs, hsite]
    | _ => grind [Ty.Like, Ty.sameOccurrence]
  | .array e, _, b, _, ha, hb => by
    rw [Ty.Like] at ha
    obtain ⟨e', rfl, he⟩ := ha
    cases b with
    | array x =>
      rw [Ty.Like] at hb
      obtain ⟨x', rfl, hx⟩ := hb
      rw [Ty.sameOccurrence, Ty.sameOccurrence, Ty.sameOccurrence_like hρ he hx]
    | _ => grind [Ty.Like, Ty.sameOccurrence]
  | .inter s ms, _, b, _, ha, hb => by
    rw [Ty.Like] at ha
    obtain ⟨s', ms', rfl, hs, hms⟩ := ha
    cases b with
    | inter st ns =>
      rw [Ty.Like] at hb
      obtain ⟨st', ns', rfl, hst, hns⟩ := hb
      have hsite : (s == st) = (s' == st') := by
        rw [Bool.eq_iff_iff, beq_iff_eq, beq_iff_eq, hρ.site_eq hs hst]
      rw [Ty.sameOccurrence, Ty.sameOccurrence, Ty.sameOccurrenceAll_like hρ hms hns, hsite]
    | _ => grind [Ty.Like, Ty.sameOccurrence]
  | .var v, _, b, _, ha, hb => by
    rw [Ty.Like] at ha
    obtain ⟨v', rfl, hv⟩ := ha
    cases b with
    | var w =>
      rw [Ty.Like] at hb
      obtain ⟨w', rfl, hw⟩ := hb
      rw [Ty.sameOccurrence, Ty.sameOccurrence, Bool.eq_iff_iff, beq_iff_eq, beq_iff_eq,
        hρ.number.var_eq hv hw]
    | _ => grind [Ty.Like, Ty.sameOccurrence]
termination_by structural a => a

/-- Whether arguments are the same occurrence is the same for alike ones. -/
theorem Arg.sameOccurrence_like (hρ : ρ.Exact) : ∀ {a a' b b' : Arg}, a.Like ρ a' → b.Like ρ b' →
    a.sameOccurrence b = a'.sameOccurrence b'
  | .type t, _, b, _, ha, hb => by
    rw [Arg.Like] at ha
    obtain ⟨t', rfl, ht⟩ := ha
    cases b with
    | type x =>
      rw [Arg.Like] at hb
      obtain ⟨x', rfl, hx⟩ := hb
      rw [Arg.sameOccurrence, Arg.sameOccurrence, Ty.sameOccurrence_like hρ ht hx]
    | wild => grind [Arg.Like, Arg.sameOccurrence]
  | .wild u l, _, b, _, ha, hb => by
    rw [Arg.Like] at ha
    obtain ⟨u', l', rfl, hu, hl⟩ := ha
    cases b with
    | wild x y =>
      rw [Arg.Like] at hb
      obtain ⟨x', y', rfl, hx, hy⟩ := hb
      rw [Arg.sameOccurrence, Arg.sameOccurrence, Ty.sameOccurrence_like hρ hu hx,
        Ty.sameOccurrence_like hρ hl hy]
    | type => grind [Arg.Like, Arg.sameOccurrence]
termination_by structural a => a

/-- Whether types are the same occurrences is the same for alike ones. -/
theorem Ty.sameOccurrenceAll_like (hρ : ρ.Exact) : ∀ {as as' bs bs' : List Ty}, Ty.LikeAll ρ as as' →
    Ty.LikeAll ρ bs bs' → Ty.sameOccurrenceAll as bs = Ty.sameOccurrenceAll as' bs'
  | [], _, bs, _, has, hbs => by cases bs <;> grind [Ty.LikeAll, Ty.sameOccurrenceAll]
  | a :: as, _, bs, _, has, hbs => by
    rw [Ty.LikeAll] at has
    obtain ⟨a', as', rfl, ha, has⟩ := has
    cases bs with
    | nil => grind [Ty.LikeAll, Ty.sameOccurrenceAll]
    | cons b bs =>
      rw [Ty.LikeAll] at hbs
      obtain ⟨b', bs', rfl, hb, hbs⟩ := hbs
      rw [Ty.sameOccurrenceAll, Ty.sameOccurrenceAll, Ty.sameOccurrence_like hρ ha hb,
        Ty.sameOccurrenceAll_like hρ has hbs]
termination_by structural as => as

/-- Whether lists of arguments are the same occurrences is the same for alike ones. -/
theorem Arg.sameOccurrenceAll_like (hρ : ρ.Exact) : ∀ {as as' bs bs' : List Arg}, Arg.LikeAll ρ as as' →
    Arg.LikeAll ρ bs bs' → Arg.sameOccurrenceAll as bs = Arg.sameOccurrenceAll as' bs'
  | [], _, bs, _, has, hbs => by cases bs <;> grind [Arg.LikeAll, Arg.sameOccurrenceAll]
  | a :: as, _, bs, _, has, hbs => by
    rw [Arg.LikeAll] at has
    obtain ⟨a', as', rfl, ha, has⟩ := has
    cases bs with
    | nil => grind [Arg.LikeAll, Arg.sameOccurrenceAll]
    | cons b bs =>
      rw [Arg.LikeAll] at hbs
      obtain ⟨b', bs', rfl, hb, hbs⟩ := hbs
      rw [Arg.sameOccurrenceAll, Arg.sameOccurrenceAll, Arg.sameOccurrence_like hρ ha hb,
        Arg.sameOccurrenceAll_like hρ has hbs]
termination_by structural as => as
end

/-- **Alike types are the same occurrence together.** -/
theorem Ty.eq_iff_of_like (hρ : ρ.Exact) {a a' b b' : Ty} (ha : a.Like ρ a') (hb : b.Like ρ b') : a = b ↔ a' = b' := by
  rw [← Ty.sameOccurrence_iff, ← Ty.sameOccurrence_iff, Ty.sameOccurrence_like hρ ha hb]

mutual
/-- Alike types agree on which types have the same shape. -/
theorem Ty.sameShape_like (hρ : ρ.Sharp) : ∀ {a a' b b' : Ty}, a.Like ρ a' → b.Like ρ b' →
    a.sameShape b = a'.sameShape b'
  | .prim p, _, b, _, ha, hb => by cases b <;> grind [Ty.Like, Ty.sameShape]
  | .null, _, b, _, ha, hb => by cases b <;> grind [Ty.Like, Ty.sameShape]
  | .nominal s d as, _, b, b', ha, hb => by
    rw [Ty.Like] at ha
    obtain ⟨s', as', rfl, -, has⟩ := ha
    cases b with
    | nominal st e bs =>
      rw [Ty.Like] at hb
      obtain ⟨st', bs', rfl, -, hbs⟩ := hb
      rw [Ty.sameShape, Ty.sameShape, Arg.sameShapeAll_like hρ has hbs]
    | _ => grind [Ty.Like, Ty.sameShape]
  | .array e, _, b, _, ha, hb => by
    rw [Ty.Like] at ha
    obtain ⟨e', rfl, he⟩ := ha
    cases b with
    | array x =>
      rw [Ty.Like] at hb
      obtain ⟨x', rfl, hx⟩ := hb
      rw [Ty.sameShape, Ty.sameShape, Ty.sameShape_like hρ he hx]
    | _ => grind [Ty.Like, Ty.sameShape]
  | .inter s ms, _, b, _, ha, hb => by
    rw [Ty.Like] at ha
    obtain ⟨s', ms', rfl, -, hms⟩ := ha
    cases b with
    | inter st ns =>
      rw [Ty.Like] at hb
      obtain ⟨st', ns', rfl, -, hns⟩ := hb
      rw [Ty.sameShape, Ty.sameShape, Ty.sameShapeAll_like hρ hms hns]
    | _ => grind [Ty.Like, Ty.sameShape]
  | .var v, _, b, _, ha, hb => by
    rw [Ty.Like] at ha
    obtain ⟨v', rfl, hv⟩ := ha
    cases b with
    | var w =>
      rw [Ty.Like] at hb
      obtain ⟨w', rfl, hw⟩ := hb
      rw [Ty.sameShape, Ty.sameShape, Bool.eq_iff_iff, beq_iff_eq, beq_iff_eq, hρ.key_eq hv hw]
    | _ => grind [Ty.Like, Ty.sameShape]
termination_by structural a => a

/-- Whether arguments have the same shape is the same for alike ones. -/
theorem Arg.sameShape_like (hρ : ρ.Sharp) : ∀ {a a' b b' : Arg}, a.Like ρ a' → b.Like ρ b' →
    a.sameShape b = a'.sameShape b'
  | .type t, _, b, _, ha, hb => by
    rw [Arg.Like] at ha
    obtain ⟨t', rfl, ht⟩ := ha
    cases b with
    | type x =>
      rw [Arg.Like] at hb
      obtain ⟨x', rfl, hx⟩ := hb
      rw [Arg.sameShape, Arg.sameShape, Ty.sameShape_like hρ ht hx]
    | wild => grind [Arg.Like, Arg.sameShape]
  | .wild u l, _, b, _, ha, hb => by
    rw [Arg.Like] at ha
    obtain ⟨u', l', rfl, hu, hl⟩ := ha
    cases b with
    | wild x y =>
      rw [Arg.Like] at hb
      obtain ⟨x', y', rfl, hx, hy⟩ := hb
      rw [Arg.sameShape, Arg.sameShape, Ty.sameShape_like hρ hu hx, Ty.sameShape_like hρ hl hy]
    | type => grind [Arg.Like, Arg.sameShape]
termination_by structural a => a

/-- Whether types have the same shapes is the same for alike ones. -/
theorem Ty.sameShapeAll_like (hρ : ρ.Sharp) : ∀ {as as' bs bs' : List Ty}, Ty.LikeAll ρ as as' →
    Ty.LikeAll ρ bs bs' → Ty.sameShapeAll as bs = Ty.sameShapeAll as' bs'
  | [], _, bs, _, has, hbs => by cases bs <;> grind [Ty.LikeAll, Ty.sameShapeAll]
  | a :: as, _, bs, _, has, hbs => by
    rw [Ty.LikeAll] at has
    obtain ⟨a', as', rfl, ha, has⟩ := has
    cases bs with
    | nil => grind [Ty.LikeAll, Ty.sameShapeAll]
    | cons b bs =>
      rw [Ty.LikeAll] at hbs
      obtain ⟨b', bs', rfl, hb, hbs⟩ := hbs
      rw [Ty.sameShapeAll, Ty.sameShapeAll, Ty.sameShape_like hρ ha hb, Ty.sameShapeAll_like hρ has hbs]
termination_by structural as => as

/-- Whether lists of arguments have the same shapes is the same for alike ones. -/
theorem Arg.sameShapeAll_like (hρ : ρ.Sharp) : ∀ {as as' bs bs' : List Arg}, Arg.LikeAll ρ as as' →
    Arg.LikeAll ρ bs bs' → Arg.sameShapeAll as bs = Arg.sameShapeAll as' bs'
  | [], _, bs, _, has, hbs => by cases bs <;> grind [Arg.LikeAll, Arg.sameShapeAll]
  | a :: as, _, bs, _, has, hbs => by
    rw [Arg.LikeAll] at has
    obtain ⟨a', as', rfl, ha, has⟩ := has
    cases bs with
    | nil => grind [Arg.LikeAll, Arg.sameShapeAll]
    | cons b bs =>
      rw [Arg.LikeAll] at hbs
      obtain ⟨b', bs', rfl, hb, hbs⟩ := hbs
      rw [Arg.sameShapeAll, Arg.sameShapeAll, Arg.sameShape_like hρ ha hb,
        Arg.sameShapeAll_like hρ has hbs]
termination_by structural as => as
end

/-- **Alike types are equal together.** -/
theorem Ty.equal_of_like (hρ : ρ.Sharp) {a a' b b' : Ty} (ha : a.Like ρ a') (hb : b.Like ρ b') :
    a.equal b = a'.equal b' := by
  rw [Ty.equal_eq_sameShape, Ty.equal_eq_sameShape, Ty.sameShape_like hρ ha hb]

end Identity

/-! ## More that stands for more -/

/-- What stands for what in the first pairing does so in the second. -/
structure Pairing.Le (ρ ρ' : Pairing) : Prop where
  declared : ∀ v, ρ.declared v → ρ'.declared v
  seen : ∀ i, ρ.seen i → ρ'.seen i
  number : ∀ i j, ρ.number i j → ρ'.number i j
  built : ∀ i j, ρ.built i j → ρ'.built i j

section Growth

variable {ρ ρ' : Pairing} (h : ρ.Le ρ')
include h

/-- Variables that are paired stay so when more is. -/
theorem Pairing.Le.var {v w : Var} (hv : ρ.var v w) : ρ'.var v w := by
  cases v with
  | declared v => exact ⟨hv.1, h.declared v hv.2⟩
  | captured i =>
    obtain ⟨j, rfl, hseen, hij⟩ := hv
    exact ⟨j, rfl, h.seen i hseen, h.number i j hij⟩

/-- Sites that are paired stay so when more is. -/
theorem Pairing.Le.site {a b : Site} (hs : ρ.site a b) : ρ'.site a b := by
  refine ⟨?_, hs.2⟩
  have hplace := hs.1
  revert hplace
  cases a.place with
  | capture i => exact fun ⟨j, hj, hij⟩ => ⟨j, hj, h.number i j hij⟩
  | built i => exact fun ⟨j, hj, hij⟩ => ⟨j, hj, h.built i j hij⟩
  | _ => exact id

end Growth

mutual
/-- Alike types stay alike when more is paired. -/
theorem Ty.Like.mono {ρ ρ' : Pairing} (h : ρ.Le ρ') : ∀ {a b : Ty}, a.Like ρ b → a.Like ρ' b
  | .prim p, _, hab => by
    rw [Ty.Like] at hab ⊢
    exact hab
  | .null, _, hab => by
    rw [Ty.Like] at hab ⊢
    exact hab
  | .nominal s d as, _, hab => by
    rw [Ty.Like] at hab ⊢
    obtain ⟨s', as', rfl, hs, has⟩ := hab
    exact ⟨s', as', rfl, h.site hs, Arg.LikeAll.mono h has⟩
  | .array e, _, hab => by
    rw [Ty.Like] at hab ⊢
    obtain ⟨e', rfl, he⟩ := hab
    exact ⟨e', rfl, Ty.Like.mono h he⟩
  | .inter s ms, _, hab => by
    rw [Ty.Like] at hab ⊢
    obtain ⟨s', ms', rfl, hs, hms⟩ := hab
    exact ⟨s', ms', rfl, h.site hs, Ty.LikeAll.mono h hms⟩
  | .var v, _, hab => by
    rw [Ty.Like] at hab ⊢
    obtain ⟨w, rfl, hv⟩ := hab
    exact ⟨w, rfl, h.var hv⟩
termination_by structural a => a

/-- Alike arguments stay alike when more is paired. -/
theorem Arg.Like.mono {ρ ρ' : Pairing} (h : ρ.Le ρ') : ∀ {a b : Arg}, a.Like ρ b → a.Like ρ' b
  | .type t, _, hab => by
    rw [Arg.Like] at hab ⊢
    obtain ⟨t', rfl, ht⟩ := hab
    exact ⟨t', rfl, Ty.Like.mono h ht⟩
  | .wild u l, _, hab => by
    rw [Arg.Like] at hab ⊢
    obtain ⟨u', l', rfl, hu, hl⟩ := hab
    exact ⟨u', l', rfl, Ty.Like.mono h hu, Ty.Like.mono h hl⟩
termination_by structural a => a

/-- Types that are alike one by one stay so when more is paired. -/
theorem Ty.LikeAll.mono {ρ ρ' : Pairing} (h : ρ.Le ρ') : ∀ {as bs : List Ty}, Ty.LikeAll ρ as bs →
    Ty.LikeAll ρ' as bs
  | [], _, hab => by
    rw [Ty.LikeAll] at hab ⊢
    exact hab
  | a :: as, _, hab => by
    rw [Ty.LikeAll] at hab ⊢
    obtain ⟨b, bs, rfl, hb, hbs⟩ := hab
    exact ⟨b, bs, rfl, Ty.Like.mono h hb, Ty.LikeAll.mono h hbs⟩
termination_by structural as => as

/-- Arguments that are alike one by one stay so when more is paired. -/
theorem Arg.LikeAll.mono {ρ ρ' : Pairing} (h : ρ.Le ρ') : ∀ {as bs : List Arg}, Arg.LikeAll ρ as bs →
    Arg.LikeAll ρ' as bs
  | [], _, hab => by
    rw [Arg.LikeAll] at hab ⊢
    exact hab
  | a :: as, _, hab => by
    rw [Arg.LikeAll] at hab ⊢
    obtain ⟨b, bs, rfl, hb, hbs⟩ := hab
    exact ⟨b, bs, rfl, Arg.Like.mono h hb, Arg.LikeAll.mono h hbs⟩
termination_by structural as => as
end

/-! ## Alike types by their forms -/

section Forms

variable {ρ : Pairing}

/-- Types are alike if they are so one by one. -/
theorem Ty.likeAll_iff {as bs : List Ty} : Ty.LikeAll ρ as bs ↔ List.Forall₂ (Ty.Like ρ) as bs := by
  induction as generalizing bs with
  | nil => rw [Ty.LikeAll, List.forall₂_nil_left_iff]
  | cons a as ih =>
    rw [Ty.LikeAll, List.forall₂_cons_left_iff]
    simp only [ih]
    grind

/-- Arguments are alike if they are so one by one. -/
theorem Arg.likeAll_iff {as bs : List Arg} :
    Arg.LikeAll ρ as bs ↔ List.Forall₂ (Arg.Like ρ) as bs := by
  induction as generalizing bs with
  | nil => rw [Arg.LikeAll, List.forall₂_nil_left_iff]
  | cons a as ih =>
    rw [Arg.LikeAll, List.forall₂_cons_left_iff]
    simp only [ih]
    grind

/-- The type of null is like itself. -/
@[simp] theorem Ty.like_null : Ty.null.Like ρ .null := by rw [Ty.Like]

/-- The top declaration is like itself. -/
theorem Ty.like_object : Ty.object.Like ρ .object := by
  rw [Ty.object, Ty.Like]
  exact ⟨_, _, rfl, ⟨rfl, rfl⟩, by rw [Arg.LikeAll]⟩

/-- The top type is like itself. -/
theorem Ty.like_top : Ty.top.Like ρ .top := by
  rw [Ty.top, Ty.Like]
  exact ⟨_, _, rfl, ⟨rfl, rfl⟩, by rw [Ty.LikeAll]⟩

/-- What is like an applied declaration is one, and they are alike as such. -/
theorem Ty.like_nominal_iff {site : Site} {d : String} {as : List Arg} {b : Ty} :
    (Ty.nominal site d as).Like ρ b ↔
      ∃ site' as', b = .nominal site' d as' ∧ (⟨site, d, as⟩ : Nominal).Like ρ ⟨site', d, as'⟩ := by
  rw [Ty.Like]
  refine exists_congr fun site' => exists_congr fun as' => and_congr_right fun _ => ?_
  rw [Arg.likeAll_iff]
  exact ⟨fun h => ⟨h.1, rfl, h.2⟩, fun h => ⟨h.site, h.args⟩⟩

/-- Applied declarations are alike if they are so as types. -/
theorem Nominal.like_iff {n n' : Nominal} : n.Like ρ n' ↔ n.toTy.Like ρ n'.toTy := by
  obtain ⟨site, d, as⟩ := n
  obtain ⟨site', d', as'⟩ := n'
  rw [Nominal.toTy, Ty.like_nominal_iff]
  constructor
  · intro h
    obtain rfl := h.decl
    exact ⟨_, _, rfl, h⟩
  · rintro ⟨_, _, heq, h⟩
    cases heq
    exact h

/-- What is like an array is one, of alike components. -/
theorem Ty.like_array_iff {e b : Ty} : (Ty.array e).Like ρ b ↔ ∃ e', b = .array e' ∧ e.Like ρ e' := by
  rw [Ty.Like]

/-- What is like an intersection is one, of alike members at paired sites. -/
theorem Ty.like_inter_iff {site : Site} {ms : List Ty} {b : Ty} : (Ty.inter site ms).Like ρ b ↔
    ∃ site' ms', b = .inter site' ms' ∧ ρ.site site site' ∧ List.Forall₂ (Ty.Like ρ) ms ms' := by
  rw [Ty.Like]
  simp only [Ty.likeAll_iff]

/-- What is like a variable is one that it is paired with. -/
theorem Ty.like_var_iff {v : Var} {b : Ty} : (Ty.var v).Like ρ b ↔ ∃ w, b = .var w ∧ ρ.var v w := by
  rw [Ty.Like]

/-- What is like an argument that is a type is one that is an alike type. -/
theorem Arg.like_type_iff {t : Ty} {b : Arg} :
    (Arg.type t).Like ρ b ↔ ∃ t', b = .type t' ∧ t.Like ρ t' := by rw [Arg.Like]

/-- What is like a wildcard is one with alike bounds. -/
theorem Arg.like_wild_iff {u l : Ty} {b : Arg} :
    (Arg.wild u l).Like ρ b ↔ ∃ u' l', b = .wild u' l' ∧ u.Like ρ u' ∧ l.Like ρ l' := by rw [Arg.Like]

/-- Paired variables are alike as types. -/
theorem Ty.like_var {v w : Var} (h : ρ.var v w) : (Ty.var v).Like ρ (.var w) := by
  rw [Ty.Like]
  exact ⟨w, rfl, h⟩

section Like

variable {t t' u u' : Ty} {a a' : Arg}

/-- Alike types are alike variables together. -/
theorem Ty.Like.eq_var_iff (h : t.Like ρ t') (hρ : ρ.Sharp) {v w : Var} (hv : ρ.var v w) :
    t = .var v ↔ t' = .var w := by
  cases t with
  | var u =>
    rw [Ty.Like] at h
    obtain ⟨u', rfl, hu⟩ := h
    rw [Ty.var.injEq, Ty.var.injEq]
    exact hρ.var_eq hu hv
  | _ => grind [Ty.Like]

/-- Alike types are both top or neither. -/
theorem Ty.Like.isTop_eq (h : t.Like ρ t') : t.isTop = t'.isTop := by
  cases t with
  | nominal s d as =>
    rw [Ty.Like] at h
    obtain ⟨s', as', rfl, -, has⟩ := h
    cases as with
    | nil =>
      obtain rfl : as' = [] := by rwa [Arg.LikeAll] at has
      rfl
    | cons a as =>
      rw [Arg.LikeAll] at has
      obtain ⟨b, bs, rfl, -⟩ := has
      rfl
  | inter s ms =>
    rw [Ty.Like] at h
    obtain ⟨s', ms', rfl, -, hms⟩ := h
    cases ms with
    | nil =>
      obtain rfl : ms' = [] := by rwa [Ty.LikeAll] at hms
      rfl
    | cons c cs =>
      rw [Ty.LikeAll] at hms
      obtain ⟨b, bs, rfl, -⟩ := hms
      rfl
  | _ => grind [Ty.Like, Ty.isTop]

/-- Alike types are both intersections or neither. -/
theorem Ty.Like.isInter_eq (h : t.Like ρ t') : t.isInter = t'.isInter := by
  cases t <;> grind [Ty.Like, Ty.isInter]

/-- Alike types are both primitives or neither. -/
theorem Ty.Like.isPrim_eq (h : t.Like ρ t') : t.isPrim = t'.isPrim := by
  cases t <;> grind [Ty.Like, Ty.isPrim]

/-- Alike arguments are both wildcards or neither. -/
theorem Arg.Like.isWild_eq (h : a.Like ρ a') : a.isWild = a'.isWild := by
  cases a <;> grind [Arg.Like, Arg.isWild]

/-- Alike arguments are alike as types, if they are types. -/
theorem Arg.Like.type? (h : a.Like ρ a') : Option.Rel (Ty.Like ρ) a.type? a'.type? := by
  cases a with
  | type t =>
    rw [Arg.Like] at h
    obtain ⟨t', rfl, ht⟩ := h
    exact .some ht
  | wild u l =>
    rw [Arg.Like] at h
    obtain ⟨u', l', rfl, -⟩ := h
    exact .none

/-- Alike types have alike conjuncts. -/
theorem Ty.Like.conjuncts (h : t.Like ρ t') : List.Forall₂ (Ty.Like ρ) t.conjuncts t'.conjuncts := by
  cases hinter : t.isInter with
  | true =>
    cases t with
    | inter s ms =>
      rw [Ty.Like] at h
      obtain ⟨s', ms', rfl, -, hms⟩ := h
      exact Ty.likeAll_iff.1 hms
    | _ => cases hinter
  | false =>
    rw [Ty.conjuncts_of_not_inter hinter, Ty.conjuncts_of_not_inter (h.isInter_eq ▸ hinter)]
    exact .cons h .nil

/-- The meets of alike types are alike. -/
theorem Ty.like_meet {site site' : Site} (hsite : ρ.site site site') {ts ts' : List Ty}
    (h : List.Forall₂ (Ty.Like ρ) ts ts') : (Ty.meet site ts).Like ρ (Ty.meet site' ts') := by
  have hparts : List.Forall₂ (Ty.Like ρ) (ts.flatMap Ty.conjuncts) (ts'.flatMap Ty.conjuncts) :=
    List.rel_flatMap h fun _ _ => Ty.Like.conjuncts
  rw [Ty.meet, Ty.meet]
  cases hc : ts.flatMap Ty.conjuncts with
  | nil =>
    rw [hc, List.forall₂_nil_left_iff] at hparts
    rw [hparts]
    exact Ty.like_top
  | cons c cs =>
    rw [hc, List.forall₂_cons_left_iff] at hparts
    obtain ⟨c', cs', hfirst, hrest, hc'⟩ := hparts
    rw [hc', Ty.Like]
    exact ⟨_, _, rfl, hsite, Ty.likeAll_iff.2 (.cons hfirst hrest)⟩

/-- **Alike bounds meet in alike bounds.** -/
theorem Ty.Like.meetBounds {site site' : Site} (hsite : ρ.site site site') (ht : t.Like ρ t')
    (hu : u.Like ρ u') : (Ty.meetBounds site t u).Like ρ (Ty.meetBounds site' t' u') := by
  rw [Ty.meetBounds, Ty.meetBounds, ht.isTop_eq, hu.isTop_eq]
  split
  · exact hu
  · split
    · exact ht
    · exact Ty.like_meet hsite (.cons ht (.cons hu .nil))

end Like

end Forms

/-! ## Substitution -/

section Options

variable {α β γ δ : Type} {R : α → β → Prop} {S : γ → δ → Prop} {o : Option α} {o' : Option β}

/-- Related options are both nothing, or both something and related. -/
theorem rel_cases (h : Option.Rel R o o') :
    (o = none ∧ o' = none) ∨ ∃ a b, o = some a ∧ o' = some b ∧ R a b := by
  cases h with
  | none => exact .inl ⟨rfl, rfl⟩
  | some h => exact .inr ⟨_, _, rfl, rfl, h⟩

/-- Images of related options are related. -/
theorem rel_optionMap (h : Option.Rel R o o') {f : α → γ} {f' : β → δ}
    (hf : ∀ a b, R a b → S (f a) (f' b)) : Option.Rel S (o.map f) (o'.map f') := by
  cases h with
  | none => exact .none
  | some h => exact .some (hf _ _ h)

/-- Related options are related with related defaults. -/
theorem rel_getD (h : Option.Rel R o o') {a : α} {b : β} (hab : R a b) :
    R (o.getD a) (o'.getD b) := by
  cases h with
  | none => exact hab
  | some h => exact h

/-- Related options with related alternatives are related. -/
theorem rel_or (h : Option.Rel R o o') {p : Option α} {p' : Option β} (hp : Option.Rel R p p') :
    Option.Rel R (o.or p) (o'.or p') := by
  cases h with
  | none => exact hp
  | some h => exact .some h

/-- Related lists have related elements. -/
theorem rel_getElem? {as : List α} {bs : List β} (h : List.Forall₂ R as bs) (i : Nat) :
    Option.Rel R as[i]? bs[i]? := by
  induction h generalizing i with
  | nil => exact .none
  | cons hab _ ih =>
    cases i with
    | zero => exact .some hab
    | succ i => exact ih i

end Options

/-- The substitutions give alike types to the same declared variables. -/
def Subst.Like (ρ : Pairing) (σ σ' : Subst) : Prop :=
  List.Forall₂ (fun e e' => (∃ v : TypeVar, e.1 = .declared v ∧ e'.1 = .declared v) ∧ e.2.Like ρ e'.2)
    σ.entries σ'.entries

section Substitution

variable {ρ : Pairing} {σ σ' : Subst}

/-- Alike substitutions are both empty or neither. -/
theorem Subst.Like.isEmpty_eq (h : σ.Like ρ σ') : σ.entries.isEmpty = σ'.entries.isEmpty := by
  obtain ⟨es⟩ := σ
  obtain ⟨es'⟩ := σ'
  cases h <;> rfl

/-- Alike substitutions give alike types to paired variables. -/
theorem Subst.Like.lookup (h : σ.Like ρ σ') {v w : Var} (hv : ρ.var v w) :
    Option.Rel (Ty.Like ρ) (σ.lookup v) (σ'.lookup w) := by
  have hkey : ∀ u : TypeVar, (Var.key (.declared u) == v.key) = (Var.key (.declared u) == w.key) := by
    intro u
    cases v with
    | declared v =>
      obtain ⟨rfl, -⟩ := hv
      rfl
    | captured i =>
      obtain ⟨j, rfl, -⟩ := hv
      rfl
  obtain ⟨es⟩ := σ
  obtain ⟨es'⟩ := σ'
  unfold Subst.lookup
  dsimp only [Subst.Like] at h ⊢
  induction h with
  | nil => exact .none
  | @cons e e' es es' he _ ih =>
    obtain ⟨⟨u, hu, hu'⟩, hlike⟩ := he
    simp only [List.find?_cons, hu, hu', hkey]
    cases Var.key (.declared u) == w.key with
    | true => exact .some hlike
    | false => exact ih

/-- Alike substitutions stay alike when alike types are given to a variable. -/
theorem Subst.Like.insert (h : σ.Like ρ σ') (v : TypeVar) {t t' : Ty} (ht : t.Like ρ t') :
    (σ.insert (.declared v) t).Like ρ (σ'.insert (.declared v) t') := by
  refine .cons ⟨⟨v, rfl, rfl⟩, ht⟩ ?_
  obtain ⟨es⟩ := σ
  obtain ⟨es'⟩ := σ'
  dsimp only [Subst.Like] at h ⊢
  induction h with
  | nil => exact .nil
  | @cons e e' es es' he _ ih =>
    obtain ⟨⟨u, hu, hu'⟩, -⟩ := id he
    simp only [List.filter_cons, hu, hu']
    split
    · exact .cons he ih
    · exact ih

/-- **Alike types given to the same variables are alike substitutions.** -/
theorem Subst.like_zip (vs : List TypeVar) {ts ts' : List Ty} (h : List.Forall₂ (Ty.Like ρ) ts ts') :
    (Subst.zip vs ts).Like ρ (Subst.zip vs ts') := by
  suffices hall : ∀ {σ σ' : Subst}, σ.Like ρ σ' →
      (σ.insertAll ((vs.map Var.declared).zip ts)).Like ρ
        (σ'.insertAll ((vs.map Var.declared).zip ts')) from
    hall .nil
  induction h generalizing vs with
  | nil => simp [Subst.insertAll]
  | cons ht _ ih =>
    intro σ σ' hσ
    cases vs with
    | nil => exact hσ
    | cons v vs => exact ih vs (hσ.insert v ht)

/-- The parts of paired sites are paired. -/
theorem Pairing.site_part {site site' : Site} (h : ρ.site site site') (i : Nat) :
    ρ.site (site.part i) (site'.part i) :=
  ⟨h.1, congrArg (i :: ·) h.2⟩

mutual
/-- **Alike substitutions do the same to alike types.** -/
theorem Ty.Like.subst? (hρ : ρ.Sharp) (hσ : σ.Like ρ σ') : ∀ {t t' : Ty} {site site' : Site},
    ρ.site site site' → t.Like ρ t' → Option.Rel (Ty.Like ρ) (t.subst? σ site) (t'.subst? σ' site')
  | .prim p, _, _, _, _, h => by
    rw [Ty.Like] at h
    subst h
    exact .none
  | .null, _, _, _, _, h => by
    rw [Ty.Like] at h
    subst h
    exact .none
  | .nominal s d as, _, _, _, hs, h => by
    rw [Ty.Like] at h
    obtain ⟨s', as', rfl, -, has⟩ := h
    rw [Ty.subst?, Ty.subst?]
    refine rel_optionMap (Arg.LikeAll.substAll? hρ hσ 0 hs has) fun bs bs' hbs => ?_
    rw [Ty.Like]
    exact ⟨_, _, rfl, hs, hbs⟩
  | .array e, _, _, _, hs, h => by
    rw [Ty.Like] at h
    obtain ⟨e', rfl, he⟩ := h
    rw [Ty.subst?, Ty.subst?]
    refine rel_optionMap (Ty.Like.subst? hρ hσ hs he) fun x x' hx => ?_
    rw [Ty.Like]
    exact ⟨_, rfl, hx⟩
  | .inter s ms, _, _, _, hs, h => by
    rw [Ty.Like] at h
    obtain ⟨s', ms', rfl, -, hms⟩ := h
    rw [Ty.subst?, Ty.subst?]
    exact rel_optionMap (Ty.LikeAll.substAll? hρ hσ 0 hs hms) fun ns ns' hns =>
      Ty.like_meet hs (Ty.likeAll_iff.1 hns)
  | .var v, _, _, _, _, h => by
    rw [Ty.Like] at h
    obtain ⟨w, rfl, hv⟩ := h
    rw [Ty.subst?, Ty.subst?]
    rcases rel_cases (hσ.lookup hv) with ⟨ht, ht'⟩ | ⟨t, t', ht, ht', hlike⟩ <;> rw [ht, ht']
    · exact .none
    · have hiff := hlike.eq_var_iff hρ hv
      rw [Option.filter_some, Option.filter_some]
      by_cases heq : t = .var v
      · rw [if_neg (by simpa using heq), if_neg (by simpa using hiff.1 heq)]
        exact .none
      · rw [if_pos (by simpa using heq), if_pos (by simpa using mt hiff.2 heq)]
        exact .some hlike

/-- Substituting alike types in alike arguments gives alike ones. -/
theorem Arg.Like.subst? (hρ : ρ.Sharp) (hσ : σ.Like ρ σ') : ∀ {a a' : Arg} {site site' : Site},
    ρ.site site site' → a.Like ρ a' → Option.Rel (Arg.Like ρ) (a.subst? σ site) (a'.subst? σ' site')
  | .type t, _, _, _, hs, h => by
    rw [Arg.Like] at h
    obtain ⟨t', rfl, ht⟩ := h
    rw [Arg.subst?, Arg.subst?]
    refine rel_optionMap (Ty.Like.subst? hρ hσ hs ht) fun x x' hx => ?_
    rw [Arg.Like]
    exact ⟨_, rfl, hx⟩
  | .wild u l, _, site, site', hs, h => by
    rw [Arg.Like] at h
    obtain ⟨u', l', rfl, hu, hl⟩ := h
    rw [Arg.subst?, Arg.subst?]
    have hupper := Ty.Like.subst? hρ hσ (Pairing.site_part hs 0) hu
    have hlower := Ty.Like.subst? hρ hσ (Pairing.site_part hs 1) hl
    have hnew : (Arg.wild ((u.subst? σ (site.part 0)).getD u) ((l.subst? σ (site.part 1)).getD l)).Like ρ
        (.wild ((u'.subst? σ' (site'.part 0)).getD u') ((l'.subst? σ' (site'.part 1)).getD l')) := by
      rw [Arg.Like]
      exact ⟨_, _, rfl, rel_getD hupper hu, rel_getD hlower hl⟩
    rcases rel_cases hupper with ⟨ho, ho'⟩ | ⟨x, x', ho, ho', hx⟩ <;>
      rcases rel_cases hlower with ⟨hp, hp'⟩ | ⟨y, y', hp, hp', hy⟩ <;>
        rw [ho, ho', hp, hp'] at hnew ⊢
    · exact .none
    all_goals exact .some hnew

/-- Substituting alike types in types that are alike one by one gives such types. -/
theorem Ty.LikeAll.substAll? (hρ : ρ.Sharp) (hσ : σ.Like ρ σ') : ∀ {ts ts' : List Ty} {site site' : Site}
    (i : Nat), ρ.site site site' → Ty.LikeAll ρ ts ts' →
      Option.Rel (Ty.LikeAll ρ) (Ty.substAll? σ site i ts) (Ty.substAll? σ' site' i ts')
  | [], _, _, _, _, _, h => by
    rw [Ty.LikeAll] at h
    subst h
    exact .none
  | t :: ts, _, site, site', i, hs, h => by
    rw [Ty.LikeAll] at h
    obtain ⟨t', ts', rfl, ht, hts⟩ := h
    rw [Ty.substAll?, Ty.substAll?]
    have hfirst := Ty.Like.subst? hρ hσ (Pairing.site_part hs i) ht
    have hrest := Ty.LikeAll.substAll? hρ hσ (i + 1) hs hts
    have hnew : Ty.LikeAll ρ
        ((t.subst? σ (site.part i)).getD t :: (Ty.substAll? σ site (i + 1) ts).getD ts)
        ((t'.subst? σ' (site'.part i)).getD t' :: (Ty.substAll? σ' site' (i + 1) ts').getD ts') := by
      rw [Ty.LikeAll]
      exact ⟨_, _, rfl, rel_getD hfirst ht, rel_getD hrest hts⟩
    rcases rel_cases hfirst with ⟨ho, ho'⟩ | ⟨x, x', ho, ho', hx⟩ <;>
      rcases rel_cases hrest with ⟨hp, hp'⟩ | ⟨y, y', hp, hp', hy⟩ <;>
        rw [ho, ho', hp, hp'] at hnew ⊢
    · exact .none
    all_goals exact .some hnew

/-- Substituting alike types in arguments that are alike one by one gives such arguments. -/
theorem Arg.LikeAll.substAll? (hρ : ρ.Sharp) (hσ : σ.Like ρ σ') :
    ∀ {as as' : List Arg} {site site' : Site} (i : Nat), ρ.site site site' → Arg.LikeAll ρ as as' →
      Option.Rel (Arg.LikeAll ρ) (Arg.substAll? σ site i as) (Arg.substAll? σ' site' i as')
  | [], _, _, _, _, _, h => by
    rw [Arg.LikeAll] at h
    subst h
    exact .none
  | a :: as, _, site, site', i, hs, h => by
    rw [Arg.LikeAll] at h
    obtain ⟨a', as', rfl, ha, has⟩ := h
    rw [Arg.substAll?, Arg.substAll?]
    have hfirst := Arg.Like.subst? hρ hσ (Pairing.site_part hs i) ha
    have hrest := Arg.LikeAll.substAll? hρ hσ (i + 1) hs has
    have hnew : Arg.LikeAll ρ
        ((a.subst? σ (site.part i)).getD a :: (Arg.substAll? σ site (i + 1) as).getD as)
        ((a'.subst? σ' (site'.part i)).getD a' :: (Arg.substAll? σ' site' (i + 1) as').getD as') := by
      rw [Arg.LikeAll]
      exact ⟨_, _, rfl, rel_getD hfirst ha, rel_getD hrest has⟩
    rcases rel_cases hfirst with ⟨ho, ho'⟩ | ⟨x, x', ho, ho', hx⟩ <;>
      rcases rel_cases hrest with ⟨hp, hp'⟩ | ⟨y, y', hp, hp', hy⟩ <;>
        rw [ho, ho', hp, hp'] at hnew ⊢
    · exact .none
    all_goals exact .some hnew
end

end Substitution

/-! ## Capture -/

/-- **Alike arguments are captured alike**, if the new numbers are paired. -/
theorem Setting.like_captureArgs {ρ : Pairing} {as as' : List Arg} (h : List.Forall₂ (Arg.Like ρ) as as')
    {last last' : Nat} (hnew : ∀ j < as.countP Arg.isWild,
      ρ.var (.captured (last + 1 + j)) (.captured (last' + 1 + j))) :
    List.Forall₂ (Arg.Like ρ) (captureArgs last as) (captureArgs last' as') := by
  induction h generalizing last last' with
  | nil => exact .nil
  | @cons a a' as as' ha _ ih =>
    cases a with
    | type t =>
      obtain ⟨t', rfl, -⟩ := Arg.like_type_iff.1 ha
      rw [captureArgs, captureArgs]
      exact .cons ha (ih fun j hj => hnew j (by rwa [List.countP_cons_of_neg (by simp [Arg.isWild])]))
    | wild u l =>
      obtain ⟨u', l', rfl, -⟩ := Arg.like_wild_iff.1 ha
      rw [List.countP_cons_of_pos (by simp [Arg.isWild])] at hnew
      rw [captureArgs, captureArgs]
      refine .cons (Arg.like_type_iff.2 ⟨_, rfl, Ty.like_var (hnew 0 (by omega))⟩) (ih fun j hj => ?_)
      have hnext := hnew (j + 1) (by omega)
      rwa [show last + 1 + (j + 1) = last + 1 + 1 + j by omega,
        show last' + 1 + (j + 1) = last' + 1 + 1 + j by omega] at hnext

end Generics
