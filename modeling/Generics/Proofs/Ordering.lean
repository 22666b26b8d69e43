/-
# Applied types are ordered

In a hierarchy, subtyping of applied types is a partial order that is decided whenever comparisons
may nest deep enough. What the order is can be said without any recursion through arguments:
`Setting.Beneath` relates a declaration to what the ways up come to, and a variable to what its bound
is related to. The arguments asked for must be the arguments found, because two applied types that
are below each other are the same (`Beneath.antisymm`).

- If a comparison answers, it says whether the types are related (`belowWithin_decides_beneath`), also
  for types with variables whose bounds do not lead back.
- For types without variables it answers as soon as it may nest as deep as the right side is nested
  (`belowWithin_responds`): the left side can grow on the way up, but it is turned to the right
  only if the declarations differ, and then nothing is asked about arguments.
-/

import Generics.Proofs.Hierarchies

namespace Generics
namespace Setting

open Query Inference

variable {s : Setting} {ps : List TypeVar} {a b c : Ty} {m m' : Memory}

/-- The first type is below the second one because a way up leads from one to the other, where
variables are followed to their bounds; both are shapes. -/
inductive Beneath (s : Setting) : Ty → Ty → Prop
  | refl (v : Var) : Beneath s (.var v) (.var v)
  | bound {v : TypeVar} {b : Ty} :
    Beneath s (s.catalog.upper v).shape b → Beneath s (.var (.declared v)) b
  | object (d : String) (as : List Arg) : Beneath s (.nominal .common d as) .object
  | way {d e : String} {as bs : List Arg} :
    s.Way e d as bs → Beneath s (.nominal .common d as) (.nominal .common e bs)

/-- The bounds of the variables are applied types over them, keys tell them apart, and following
bounds that are variables does not lead back. -/
structure Bounded (s : Setting) (ps : List TypeVar) : Prop where
  keys : (ps.map TypeVar.key).Nodup
  applied : ∀ p ∈ ps, (s.catalog.upper p).Applied s ps
  acyclic : ∀ p ∈ ps, ¬ Relation.TransGen s.BareBound p p

/-- No variables have no bounds. -/
theorem Bounded.nil (s : Setting) : s.Bounded [] := ⟨.nil, by simp, by simp⟩

/-- The parameters of a grown catalog have bounds that do not lead back. -/
theorem Bounded.of_grown (h : s.catalog.Grown)
    (hdecls : ∀ d ∈ s.catalog.decls, (d.vars.map TypeVar.name).Nodup ∧
      ∀ v ∈ d.vars, (s.catalog.upper v).isApplied s d.vars = true)
    (decl : String) (l : Lineage) (hl : s.lineageOf decl = some l) : s.Bounded l.params := by
  obtain ⟨d, hd, -, hfind, hparams, -⟩ := h.of_lineage hl
  rw [hparams]
  refine ⟨keys_nodup (hdecls d hd).1, fun p hp => .of_isApplied ((hdecls d hd).2 p hp),
    fun p hp hcycle => ?_⟩
  have hacc : Acc (Relation.TransGen s.BareBound) p :=
    ((h.orderly.decls d hd).acc hfind hp).transGen
  induction hacc with
  | intro p _ ih => exact ih p hcycle hp hcycle

/-! ### An order -/

/-- The ways up from the top declaration have no step. -/
theorem Way.of_object (ho : s.PlainObject) {e : String} {as bs : List Arg}
    (h : s.Way e objectName as bs) : e = objectName ∧ bs = as := by
  cases h with
  | here => exact ⟨rfl, rfl⟩
  | up hl hmem _ =>
    rw [show s.lineageOf objectName = _ from ho] at hl
    cases hl
    cases hmem

namespace Beneath

/-- Applied types are beneath themselves. -/
theorem self (h : a.Applied s ps) : s.Beneath a.shape a.shape := by
  cases h with
  | nominal =>
    rw [Ty.shape_nominal]
    exact .way (.here _)
  | var => exact .refl _

/-- Only the top declaration is above itself. -/
theorem eq_object (ho : s.PlainObject) (h : s.Beneath .object b) : b = .object := by
  cases h with
  | object => rfl
  | way h =>
    obtain ⟨rfl, rfl⟩ := h.of_object ho
    rfl

/-- **What is beneath a type is beneath all that the type is beneath.** -/
theorem trans (ho : s.PlainObject) (h : s.Beneath a b) (h' : s.Beneath b c) : s.Beneath a c := by
  induction h with
  | refl => exact h'
  | bound _ ih => exact .bound (ih h')
  | object =>
    rw [h'.eq_object ho]
    exact .object _ _
  | way hway =>
    cases h' with
    | object => exact .object _ _
    | way hway' => exact .way (hway.trans hway')

/-- Only variables are beneath a variable, and their bounds lead to it. -/
theorem of_var {v : TypeVar} (h : s.Beneath a (.var (.declared v))) :
    ∃ w, a = .var (.declared w) ∧ Relation.ReflTransGen s.BareBound v w := by
  generalize hx : Ty.var (.declared v) = x at h
  induction h with
  | refl => exact ⟨v, hx.symm, .refl⟩
  | @bound w _ h ih =>
    obtain ⟨u, hu, hreach⟩ := ih hx
    refine ⟨w, rfl, hreach.tail ?_⟩
    cases hupper : s.catalog.upper w with
    | var z =>
      rw [hupper, Ty.shape_var] at hu
      cases hu
      rw [BareBound, hupper]
      exact List.mem_singleton.2 rfl
    | _ => rw [hupper] at hu; cases hu
  | _ => cases hx

/-- **Two applied types that are beneath each other are the same.** -/
theorem antisymm (hs : s.Hierarchy) (hps : s.Bounded ps) (ha : a.Applied s ps) (h : s.Beneath a b)
    (h' : s.Beneath b a) : a = b := by
  cases h with
  | refl => rfl
  | @bound v _ h =>
    cases ha with
    | var hv =>
      obtain ⟨w, rfl, hvw⟩ := h'.of_var
      obtain ⟨u, hu, hwu⟩ := h.of_var
      have huv : s.BareBound u v := by
        cases hupper : s.catalog.upper v with
        | var z =>
          rw [hupper, Ty.shape_var] at hu
          cases hu
          rw [BareBound, hupper]
          exact List.mem_singleton.2 rfl
        | _ => rw [hupper] at hu; cases hu
      exact absurd (.tail' (hvw.trans hwu) huv) (hps.acyclic v hv)
  | object => exact h'.eq_object hs.object
  | @way d e as bs hway =>
    cases h' with
    | object =>
      obtain ⟨rfl, rfl⟩ := hway.of_object hs.object
      rfl
    | way hway' =>
      obtain rfl : d = e := by
        rcases Relation.reflTransGen_iff_eq_or_transGen.1 hway.reaches with heq | htrans
        · exact heq.symm
        · exact absurd (htrans.trans_left hway'.reaches) (hs.acyclic d)
      rw [hway.eq_of_acyclic hs.acyclic]

end Beneath

/-! ### One comparison -/

/-- A declaration is beneath the top one, or beneath what a way up leads to. -/
theorem Beneath.of_nominal {x y : Nominal} (h : s.Beneath x.toTy.shape y.toTy.shape) :
    y.decl = objectName ∨ s.Way y.decl x.decl (x.args.map Arg.shape) (y.args.map Arg.shape) := by
  rw [Nominal.toTy, Nominal.toTy, Ty.shape_nominal, Ty.shape_nominal] at h
  generalize hx : Ty.nominal .common y.decl (y.args.map Arg.shape) = z at h
  cases h with
  | object =>
    injection hx with _ hd _
    exact .inl hd
  | way h =>
    injection hx with _ hd has
    subst hd has
    exact .inr h

/-- What is known of two applied declarations before their arguments are compared, in terms of the
order. -/
structure Meeting.Tells (s : Setting) (ps : List TypeVar) (x y : Nominal) (r : Meeting) : Prop where
  never : r = .never → ¬ s.Beneath x.toTy.shape y.toTy.shape
  always : r = .always → s.Beneath x.toTy.shape y.toTy.shape
  applied : ∀ cs, r = .found cs → (Ty.nominal .common y.decl cs).Applied s ps
  found : ∀ cs, r = .found cs → cs.length = y.args.length ∧
    (s.Beneath x.toTy.shape y.toTy.shape ↔ cs.map Arg.shape = y.args.map Arg.shape)

/-- An applied declaration has as many arguments as parameters. -/
theorem lineage_of_applied {x : Nominal} (h : x.toTy.Applied s ps) :
    ∃ l, s.lineageOf x.decl = some l ∧ x.args.length = l.params.length := by
  cases h with
  | nominal hl hlen => exact ⟨_, hl, hlen⟩

/-- An applied declaration is not raw. -/
theorem isRaw_of_applied {x : Nominal} (h : x.toTy.Applied s ps) :
    Settles s (s.isRaw x) (.ok false) := by
  obtain ⟨l, hl, hlen⟩ := lineage_of_applied h
  have hraw := isRaw_settles hl
  have hfalse : (x.args.isEmpty && !l.params.isEmpty) = false := by
    cases hx : x.args with
    | nil =>
      rw [hx] at hlen
      rw [List.length_eq_zero_iff.1 hlen.symm]
      rfl
    | cons a as => rfl
  rwa [hfalse] at hraw

/-- A declaration that is applied to arguments is not the top one. -/
theorem applied_ne_object (ho : s.PlainObject) {y : Nominal} (hy : y.toTy.Applied s ps)
    (hargs : y.args ≠ []) : y.decl ≠ objectName := by
  intro hobject
  obtain ⟨l, hl, hlen⟩ := lineage_of_applied hy
  rw [hobject, show s.lineageOf objectName = _ from ho] at hl
  cases hl
  exact hargs (List.length_eq_zero_iff.1 hlen)

/-- An applied declaration that inherits from another one without arguments is beneath it. -/
theorem Beneath.of_inherits (hs : s.Hierarchy) {x y : Nominal} (hx : x.toTy.Applied s ps)
    (hy : y.toTy.Applied s ps) (hargs : y.args = [])
    (h : Settles s (s.inherits x.decl y.decl) (.ok true)) : s.Beneath x.toTy.shape y.toTy.shape := by
  obtain ⟨l, hl, hlen⟩ := lineage_of_applied hy
  have hreach : y.decl = objectName ∨ Relation.ReflTransGen s.Parent x.decl y.decl := by
    rcases inherits_sound h with heq | ho | htrans
    · exact .inr (heq ▸ .refl)
    · exact .inl ho
    · exact .inr htrans.to_reflTransGen
  rw [Nominal.toTy, Nominal.toTy, Ty.shape_nominal, Ty.shape_nominal, hargs]
  rcases hreach with ho | hreach
  · rw [ho]
    exact .object _ _
  · obtain ⟨found, hseen⟩ := SeenAs.exists hs.acyclic hs.parentsRegular.known hreach
      (x.args.map Arg.shape)
    have hshape : (Ty.nominal .common x.decl (x.args.map Arg.shape)).Applied s ps := by
      have := hx.shape
      rwa [Nominal.toTy, Ty.shape_nominal] at this
    have hfound := hs.applied_way hseen.way hshape
    obtain ⟨l', hl', hlen'⟩ := lineage_of_applied (x := ⟨.common, y.decl, found⟩) hfound
    rw [hl] at hl'
    cases hl'
    rw [hargs] at hlen
    have hnil : found = [] := List.length_eq_zero_iff.1 (hlen'.trans hlen.symm)
    rw [hnil] at hseen
    exact .way hseen.way

/-- **What the meeting of two applied declarations tells.** -/
theorem meeting_tells (hs : s.Hierarchy) {x y : Nominal} {r : Meeting} (hm : m.Faithful s)
    (hx : x.toTy.Applied s ps) (hy : y.toTy.Applied s ps) (h : (s.meeting x y).Answers m r m') :
    m'.Faithful s ∧ r.Tells s ps x y := by
  obtain ⟨lx, hlx, _⟩ := lineage_of_applied hx
  obtain ⟨i, m₁, hanswer, h⟩ := answers_bind.1 h
  obtain ⟨hi, hst⟩ := (inherits_steady s x.decl y.decl).stays hm hanswer
  cases i with
  | false =>
    obtain ⟨rfl, rfl⟩ := answers_pure.1 h
    refine ⟨hst.faithful, fun _ hbeneath => ?_, by simp, by simp, by simp⟩
    have hup : x.decl = y.decl ∨ y.decl = objectName ∨ Relation.TransGen s.Parent x.decl y.decl := by
      rcases hbeneath.of_nominal with ho | hway
      · exact .inr (.inl ho)
      · rcases Relation.reflTransGen_iff_eq_or_transGen.1 hway.reaches with heq | htrans
        · exact .inl heq.symm
        · exact .inr (.inr htrans)
    have := hi.unique ((inherits_iff hs.parentsRegular.known (by rw [hlx]; rfl)).2 hup)
    injection this with this
    cases this
  | true =>
    simp only [if_true] at h
    split at h
    · next hempty =>
      obtain ⟨rfl, rfl⟩ := answers_pure.1 h
      exact ⟨hst.faithful, by simp,
        fun _ => .of_inherits hs hx hy (List.isEmpty_iff.1 hempty) hi, by simp, by simp⟩
    · next hempty =>
      have hargs : y.args ≠ [] := fun h0 => hempty (List.isEmpty_iff.2 h0)
      have hne := applied_ne_object hs.object hy hargs
      obtain ⟨raw, m₂, hraw, h⟩ := answers_bind.1 h
      obtain ⟨hraw', hst₂⟩ := Steady.stays ⟨_, isRaw_of_applied hx⟩ hst.faithful hraw
      have := hraw'.unique (isRaw_of_applied hx)
      injection this with this
      subst this
      simp only [Bool.false_eq_true, if_false] at h
      obtain ⟨r₀, m₃, hsuper, h⟩ := answers_bind.1 h
      obtain ⟨x', m₄, hcapture, hseen⟩ := answers_bind.1 hsuper
      rw [capture, Bool.eq_false_iff.2 (not_hasWild hx.regular)] at hcapture
      obtain ⟨hx', hm₄⟩ := answers_pure.1 hcapture
      rw [hx', hm₄, Setting.seenAs, if_neg hne] at hseen
      have hreg := hx.regular
      rw [Nominal.toTy, Ty.Regular, Arg.regularAll_iff] at hreg
      obtain ⟨hst₃, hnone, hsome⟩ := climb_answers hs.parentsRegular hst₂.faithful hreg.2 hseen
      have hreach : Relation.ReflTransGen s.Parent x.decl y.decl := by
        rcases inherits_sound hi with heq | ho | htrans
        · exact heq ▸ .refl
        · exact absurd ho hne
        · exact htrans.to_reflTransGen
      have happ : (Ty.nominal .common x.decl (x.args.map Arg.shape)).Applied s ps := by
        have := hx.shape
        rwa [Nominal.toTy, Ty.shape_nominal] at this
      cases r₀ with
      | none =>
        obtain ⟨found, hfound⟩ := SeenAs.exists hs.acyclic hs.parentsRegular.known hreach
          (x.args.map Arg.shape)
        exact absurd hfound (hnone rfl found)
      | some n =>
        obtain ⟨hway, _⟩ := hsome n rfl
        have hn : (Ty.nominal .common y.decl n.args).Applied s ps := by
          refine .of_shape ?_
          rw [Ty.shape_nominal]
          exact hs.applied_way hway.way happ
        obtain ⟨l, hl, hlen⟩ := lineage_of_applied hy
        obtain ⟨l', hl', hlen'⟩ := lineage_of_applied (x := ⟨.common, y.decl, n.args⟩) hn
        rw [hl] at hl'
        cases hl'
        have hcount : n.args.length = y.args.length := hlen'.trans hlen.symm
        simp only [hcount, if_true] at h
        obtain ⟨rfl, rfl⟩ := answers_pure.1 h
        refine ⟨hst₃.faithful, by simp, by simp, fun cs hcs => ?_, fun cs hcs => ?_⟩ <;>
          injection hcs with hcs <;> subst hcs
        · exact hn
        · refine ⟨hcount, fun hbeneath => ?_, fun heq => ?_⟩
          · exact hs.way_unique hx hway.way (hbeneath.of_nominal.resolve_left hne)
          · rw [Nominal.toTy, Nominal.toTy, Ty.shape_nominal, Ty.shape_nominal, ← heq]
            exact .way hway.way

/-! ### The comparison decides the order -/

section Arguments

variable {sub : Ty → Ty → Query Bool} (hs : s.Hierarchy) (hps : s.Bounded ps)
  (hsub : ∀ a b, a.Applied s ps → b.Applied s ps →
    Decides (Memory.Faithful s) (sub a b) (s.Beneath a.shape b.shape))
include hs hps hsub

/-- Comparing both ways decides whether applied types have one shape. -/
theorem equivalentBy_decides_shape (ha : a.Applied s ps) (hb : b.Applied s ps) :
    Decides (Memory.Faithful s) (equivalentBy sub a b) (a.shape = b.shape) := by
  unfold equivalentBy
  split
  · next heq => exact .pure_true (ha.shape_of_equal hb hps.keys heq)
  · refine ((hsub a b ha hb).both fun _ => hsub b a hb ha).congr ⟨fun h => ?_, fun h => ?_⟩
    · exact Beneath.antisymm hs hps ha.shape h.1 h.2
    · exact ⟨h ▸ .self ha, h ▸ .self ha⟩

/-- Whether found arguments are contained in those asked for is decided by their shapes. -/
theorem containsAllBy_decides_shapes {asked found : List Arg}
    (hasked : ∀ c ∈ asked, ∃ t, c = .type t ∧ t.Applied s ps)
    (hfound : ∀ c ∈ found, ∃ t, c = .type t ∧ t.Applied s ps) :
    Decides (Memory.Faithful s) (containsAllBy sub asked found)
      (found.map Arg.shape = asked.map Arg.shape) := by
  induction asked generalizing found with
  | nil =>
    cases found with
    | nil => exact .pure_true rfl
    | cons c cs => exact .pure_false (by simp)
  | cons d ds ih =>
    cases found with
    | nil => exact .pure_false (by simp)
    | cons c cs =>
      rw [List.forall_mem_cons] at hasked hfound
      obtain ⟨⟨t, rfl, ht⟩, hds⟩ := hasked
      obtain ⟨⟨u, rfl, hu⟩, hcs⟩ := hfound
      refine ((equivalentBy_decides_shape hs hps hsub hu ht).both fun _ => ih hds hcs).congr ?_
      simp

/-- **Comparing applied declarations decides the order.** -/
theorem nominalBelowBy_decides_beneath {x y : Nominal} (hx : x.toTy.Applied s ps)
    (hy : y.toTy.Applied s ps) : Decides (Memory.Faithful s) (s.nominalBelowBy sub x y)
      (s.Beneath x.toTy.shape y.toTy.shape) := by
  intro m r m' hm hr
  rw [nominalBelowBy_eq] at hr
  obtain ⟨meet, m₁, hmeet, hr⟩ := answers_bind.1 hr
  obtain ⟨hm₁, htells⟩ := meeting_tells hs hm hx hy hmeet
  cases meet with
  | never =>
    obtain ⟨rfl, rfl⟩ := answers_pure.1 hr
    exact ⟨hm₁, by simp, fun h => absurd h (htells.never rfl)⟩
  | always =>
    obtain ⟨rfl, rfl⟩ := answers_pure.1 hr
    exact ⟨hm₁, fun _ => htells.always rfl, fun _ => rfl⟩
  | found cs =>
    rw [(htells.found cs rfl).2]
    exact containsAllBy_decides_shapes hs hps hsub (fun _ hc => hy.arg hc)
      (fun _ hc => (htells.applied cs rfl).arg hc) m₁ r m' hm₁ hr

end Arguments

/-- No applied type is below `Null`. -/
theorem belowWithin_null (hps : s.Bounded ps) (depth : Nat) {trail : Trail} (ha : a.Applied s ps) :
    Decides (Memory.Faithful s) (s.belowWithin depth trail a .null) False := by
  induction depth generalizing trail a with
  | zero => exact fun _ _ _ _ hr => absurd hr answers_throw
  | succ depth ih =>
    cases ha with
    | nominal =>
      rw [belowWithin_unlike (by simp) rfl]
      exact .pure_false id
    | @var p hp =>
      rw [belowWithin_var rfl (by simp), if_neg (by simp [Ty.equal, Ty.sameShape])]
      split
      · exact .pure_false id
      · exact ((ih (hps.applied p hp)).either (.pure_false id)).congr (by simp)

/-- The lower bound of a declared variable is `Null`, so that no applied type is below it. -/
theorem descends_never (hps : s.Bounded ps) (depth : Nat) (trail : Trail) (ha : a.Applied s ps)
    (hb : b.Applied s ps) : Decides (Memory.Faithful s) (s.descends depth trail a b) False := by
  cases hb with
  | nominal => exact .pure_false id
  | var =>
    rw [descends]
    split
    · exact .pure_false id
    · exact belowWithin_null hps depth ha

/-- A variable that is compared is a bound, directly or not, of those whose bounds were gone
through. -/
def Climbed (s : Setting) (ps : List TypeVar) (trail : Trail) (a : Ty) : Prop :=
  ∀ q ∈ ps, (q.key, Side.upper) ∈ trail → ∀ p, a = .var (.declared p) →
    Relation.TransGen s.BareBound p q

/-- Before any bound was gone through, every type was climbed to. -/
theorem Climbed.nil (s : Setting) (ps : List TypeVar) (a : Ty) : s.Climbed ps [] a :=
  fun _ _ h => absurd h List.not_mem_nil

/-- Going on to the bound of a variable. -/
theorem Climbed.upper (hps : s.Bounded ps) {trail : Trail} {p : TypeVar} (hp : p ∈ ps)
    (h : s.Climbed ps trail (.var (.declared p))) :
    s.Climbed ps ((p.key, .upper) :: trail) (s.catalog.upper p) := by
  intro q hq hmem r hr
  have hrp : s.BareBound r p := by
    rw [BareBound, hr]
    exact List.mem_singleton.2 rfl
  rcases List.mem_cons.1 hmem with heq | hmem
  · injection heq with hkey
    exact List.inj_on_of_nodup_map hps.keys hq hp hkey ▸ .single hrp
  · exact .head hrp (h q hq hmem p rfl)

/-- Variables that were climbed to have not been gone through. -/
theorem Climbed.not_contains (hps : s.Bounded ps) {trail : Trail} {p : TypeVar} (hp : p ∈ ps)
    (h : s.Climbed ps trail (.var (.declared p))) : trail.contains (p.key, .upper) = false := by
  rw [List.contains_eq_mem, decide_eq_false_iff_not]
  exact fun hmem => hps.acyclic p hp (h p hp hmem p rfl)

/-- **A comparison of applied types decides the order**, as far as it answers. -/
theorem belowWithin_decides_beneath (hs : s.Hierarchy) (hps : s.Bounded ps) (depth : Nat)
    {trail : Trail} (ha : a.Applied s ps) (hb : b.Applied s ps) (htrail : s.Climbed ps trail a) :
    Decides (Memory.Faithful s) (s.belowWithin depth trail a b) (s.Beneath a.shape b.shape) := by
  induction depth generalizing trail a b with
  | zero => exact fun _ _ _ _ hr => absurd hr answers_throw
  | succ depth ih =>
    by_cases hab : a = b
    · rw [← hab, belowWithin_self]
      exact .pure_true (.self ha)
    have hlower := descends_never hps depth trail ha hb
    cases ha with
    | @nominal sa da aa _ hl hlen hwild htypes =>
      have ha : (Ty.nominal sa da aa).Applied s ps := .nominal hl hlen hwild htypes
      cases hb with
      | @nominal sb db ab _ hl hlen hwild htypes =>
        have hb : (Ty.nominal sb db ab).Applied s ps := .nominal hl hlen hwild htypes
        rw [belowWithin_nominal hab]
        exact nominalBelowBy_decides_beneath hs hps (fun x y hx hy => ih hx hy (.nil s ps x))
          (x := ⟨sa, da, aa⟩) (y := ⟨sb, db, ab⟩) ha hb
      | @var q hq =>
        rw [belowWithin_nominal_var]
        refine hlower.congr ⟨False.elim, fun h => ?_⟩
        obtain ⟨w, hw, _⟩ := h.of_var
        cases hw
    | @var p hp =>
      have hinter : b.isInter = false := by cases hb <;> rfl
      rw [belowWithin_var hinter hab]
      split
      · next heq =>
        have hshape := (Ty.Applied.var (s := s) hp).shape_of_equal hb hps.keys heq
        exact .pure_true (hshape ▸ .refl _)
      · next hne =>
        rw [show (Var.declared p).key = p.key from rfl, htrail.not_contains hps hp,
          if_neg Bool.false_ne_true]
        refine ((ih (hps.applied p hp) hb (htrail.upper hps hp)).either hlower).congr ?_
        rw [or_false]
        refine ⟨.bound, fun h => ?_⟩
        generalize hx : b.shape = x at h
        cases h with
        | refl =>
          refine absurd ((Ty.Applied.var (s := s) hp).equal_of_shape ?_) hne
          exact hx.symm
        | bound h => exact h

/-! ### Enough depth -/

/-- The question answers in every faithful memory. -/
def Responds {α : Type} (s : Setting) (q : Query α) : Prop :=
  ∀ m : Memory, m.Faithful s → ∃ r m', q.Answers m r m'

/-- Two questions respond if the second one does whenever it is asked. -/
theorem Responds.both {first second : Query Bool} (h : s.Responds first)
    (hkeeps : s.KeepsFaith first)
    (h' : (∃ m m', m.Faithful s ∧ first.Answers m true m') → s.Responds second) :
    s.Responds (Query.both first second) := by
  intro m hm
  obtain ⟨r, m₁, hr⟩ := h m hm
  cases r with
  | false => exact ⟨false, m₁, answers_both.2 (.inr ⟨hr, rfl⟩)⟩
  | true =>
    obtain ⟨r', m₂, hr'⟩ := h' ⟨m, m₁, hm, hr⟩ m₁ (hkeeps.answers hm hr)
    exact ⟨r', m₂, answers_both.2 (.inl ⟨m₁, hr, hr'⟩)⟩

/-- A question that goes on answers if both parts do. -/
theorem answers_after {α β : Type} {q : Query α} {f : α → Query β} {r : α} (h : q.Answers m r m')
    (h' : ∃ r' m'', (f r).Answers m' r' m'') : ∃ r' m'', (q >>= f).Answers m r' m'' := by
  obtain ⟨r', m'', hr⟩ := h'
  exact ⟨r', m'', answers_bind.2 ⟨r, m', h, hr⟩⟩

/-- **It is known how applied declarations meet.** -/
theorem meeting_responds (hs : s.Hierarchy) {x y : Nominal} (hx : x.toTy.Applied s ps)
    (hy : y.toTy.Applied s ps) : s.Responds (s.meeting x y) := by
  intro m hm
  obtain ⟨l, hl, hlen⟩ := lineage_of_applied hx
  obtain ⟨i, hi⟩ := inherits_answerable hs.parentsRegular.known y.decl (by rw [hl]; rfl)
  obtain ⟨m₁, hanswer, hst⟩ := hi.stays hm
  rw [meeting]
  refine answers_after hanswer ?_
  cases i with
  | false => exact ⟨_, _, answers_pure.2 ⟨rfl, rfl⟩⟩
  | true =>
    cases hempty : y.args.isEmpty with
    | true => exact ⟨_, _, answers_pure.2 ⟨rfl, rfl⟩⟩
    | false =>
      have hargs : y.args ≠ [] := fun h0 => by rw [h0] at hempty; cases hempty
      obtain ⟨m₂, hraw, hst₂⟩ := (isRaw_of_applied hx).stays hst.faithful
      have hreg := hx.regular
      rw [Nominal.toTy, Ty.Regular, Arg.regularAll_iff] at hreg
      obtain ⟨r, m₃, hclimb⟩ := climb_total hs.parentsRegular.fit y.decl (n := x) hst₂.faithful
        ⟨hreg.1, hx.regular.not_wild⟩ fun d _ => hs.acyclic.way y.decl d
      have hsuper : (s.supertypeAs x y.decl).Answers m₂ r m₃ := by
        refine answers_bind.2 ⟨x, m₂, ?_, ?_⟩
        · rw [capture, Bool.eq_false_iff.2 (not_hasWild hx.regular)]
          exact answers_pure.2 ⟨rfl, rfl⟩
        · rw [seenAs, if_neg (applied_ne_object hs.object hy hargs)]
          exact hclimb
      refine answers_after hraw (answers_after hsuper ?_)
      cases r with
      | none => exact ⟨_, _, answers_pure.2 ⟨rfl, rfl⟩⟩
      | some n =>
        dsimp only
        split <;> exact ⟨_, _, answers_pure.2 ⟨rfl, rfl⟩⟩

/-- Applied declarations of which one is beneath the other one and is inherited from are the same. -/
theorem Beneath.shape_of_inherits (hs : s.Hierarchy) {x y : Nominal} (hx : x.toTy.Applied s ps)
    (hy : y.toTy.Applied s ps) (h : s.Beneath x.toTy.shape y.toTy.shape)
    (hi : Settles s (s.inherits y.decl x.decl) (.ok true)) : x.toTy.shape = y.toTy.shape := by
  rw [Nominal.toTy, Nominal.toTy, Ty.shape_nominal, Ty.shape_nominal]
  rcases h.of_nominal with hobject | hway
  · have hx' : x.decl = objectName := eq_object_of_inherits hs.object (hobject ▸ hi)
    have hxs : x.args = [] := Classical.byContradiction fun h => applied_ne_object hs.object hx h hx'
    have hys : y.args = [] :=
      Classical.byContradiction fun h => applied_ne_object hs.object hy h hobject
    rw [hx', hobject, hxs, hys]
  · obtain ⟨l, hl, _⟩ := lineage_of_applied hx
    have hup : Settles s (s.inherits x.decl y.decl) (.ok true) := by
      refine (inherits_iff hs.parentsRegular.known (by rw [hl]; rfl)).2 ?_
      rcases Relation.reflTransGen_iff_eq_or_transGen.1 hway.reaches with heq | htrans
      · exact .inl heq.symm
      · exact .inr (.inr htrans)
    have hdecl := inherits_antisymm hs.object hs.acyclic hup hi
    rw [← hdecl] at hway
    rw [hway.eq_of_acyclic hs.acyclic, hdecl]

/-- Comparing a type that is beneath another one the other way round takes no depth: unless they are
equal, their declarations differ, and nothing is asked about arguments. -/
theorem belowWithin_responds_back (hs : s.Hierarchy) {depth : Nat} (ha : a.Applied s [])
    (hb : b.Applied s []) (hne : a.equal b = false) (h : s.Beneath a.shape b.shape) :
    s.Responds (s.belowWithin (depth + 1) [] b a) := by
  intro m hm
  by_cases hba : b = a
  · rw [hba, belowWithin_self]
    exact ⟨true, m, answers_pure.2 ⟨rfl, rfl⟩⟩
  have ha' := ha
  have hb' := hb
  cases ha with
  | var hp => cases hp
  | @nominal sa da aa =>
    cases hb with
    | var hp => cases hp
    | @nominal sb db ab lb hlb =>
      rw [belowWithin_nominal hba]
      obtain ⟨i, hi⟩ := inherits_answerable hs.parentsRegular.known da (by rw [hlb]; rfl)
      obtain ⟨m₁, hanswer, _⟩ := hi.stays hm
      cases i with
      | false => exact answers_after hanswer ⟨false, m₁, answers_pure.2 ⟨rfl, rfl⟩⟩
      | true =>
        have hshape : (Ty.nominal sa da aa).shape = (Ty.nominal sb db ab).shape :=
          Beneath.shape_of_inherits hs (x := ⟨sa, da, aa⟩) (y := ⟨sb, db, ab⟩) ha' hb' h hi
        rw [ha'.equal_of_shape hshape] at hne
        cases hne

/-- Containment of arguments responds if equivalence of the types in them does. -/
theorem containsAllBy_responds {sub : Ty → Ty → Query Bool} (hkeeps : ∀ a b, s.KeepsFaith (sub a b))
    {asked found : List Arg}
    (h : ∀ t u, Arg.type t ∈ asked → Arg.type u ∈ found → s.Responds (equivalentBy sub u t))
    (hasked : ∀ c ∈ asked, c.isWild = false) (hfound : ∀ c ∈ found, c.isWild = false) :
    s.Responds (containsAllBy sub asked found) := by
  induction asked generalizing found with
  | nil => cases found <;> exact fun m _ => ⟨_, m, answers_pure.2 ⟨rfl, rfl⟩⟩
  | cons d ds ih =>
    cases found with
    | nil => exact fun m _ => ⟨_, m, answers_pure.2 ⟨rfl, rfl⟩⟩
    | cons c cs =>
      rw [List.forall_mem_cons] at hasked hfound
      refine Responds.both ?_ (containsBy_preserves hkeeps d c) fun _ => ih (fun t u ht hu =>
        h t u (List.mem_cons_of_mem _ ht) (List.mem_cons_of_mem _ hu)) hasked.2 hfound.2
      cases d with
      | wild => cases hasked.1
      | type t =>
        cases c with
        | wild => cases hfound.1
        | type u => exact h t u List.mem_cons_self List.mem_cons_self

/-- **Applied types without variables are compared to the end** if comparisons may nest as deep as the
right side. -/
theorem belowWithin_responds (hs : s.Hierarchy) (hb : b.Applied s []) {depth : Nat}
    (hdepth : sizeOf b ≤ depth) (ha : a.Applied s []) : s.Responds (s.belowWithin depth [] a b) := by
  generalize hps : ([] : List TypeVar) = ps at hb
  induction hb generalizing a depth with
  | var hp =>
    subst hps
    cases hp
  | @nominal sb db ab lb hl hlen hwild htypes ih =>
    subst hps
    have hb : (Ty.nominal sb db ab).Applied s [] := .nominal hl hlen hwild htypes
    rw [Ty.nominal.sizeOf_spec] at hdepth
    obtain ⟨depth, rfl⟩ : ∃ n, depth = n + 1 := ⟨depth - 1, by omega⟩
    by_cases hab : a = .nominal sb db ab
    · rw [hab, belowWithin_self]
      exact fun m _ => ⟨true, m, answers_pure.2 ⟨rfl, rfl⟩⟩
    have hfaith : ∀ x y, s.KeepsFaith (s.belowWithin depth [] x y) := belowWithin_keepsFaith depth []
    -- an argument found is compared with one asked for, which is smaller than the right side
    have hequiv : ∀ t u, Arg.type t ∈ ab → u.Applied s [] →
        s.Responds (equivalentBy (s.belowWithin depth []) u t) := by
      intro t u ht hu
      have hsize := List.sizeOf_lt_of_mem ht
      rw [Arg.type.sizeOf_spec] at hsize
      unfold equivalentBy
      split
      · exact fun m _ => ⟨true, m, answers_pure.2 ⟨rfl, rfl⟩⟩
      · next hne =>
        refine Responds.both (ih t ht (by omega) hu) (hfaith u t) fun ⟨m, m', hm, hr⟩ => ?_
        obtain ⟨k, rfl⟩ : ∃ k, depth = k + 1 := ⟨depth - 1, by omega⟩
        have hbeneath := (belowWithin_decides_beneath hs (.nil s) (k + 1) hu (htypes t ht)
          (.nil s [] u) m true m' hm hr).2.1 rfl
        exact belowWithin_responds_back hs hu (htypes t ht) (Bool.eq_false_iff.2 hne) hbeneath
    have ha' := ha
    cases ha with
    | var hp => cases hp
    | @nominal sa da aa =>
      intro m hm
      rw [belowWithin_nominal hab, nominalBelowBy_eq]
      obtain ⟨meet, m₁, hmeet⟩ := meeting_responds hs (x := ⟨sa, da, aa⟩) (y := ⟨sb, db, ab⟩) ha' hb m hm
      obtain ⟨hm₁, htells⟩ := meeting_tells hs hm ha' hb hmeet
      refine answers_after hmeet ?_
      cases meet with
      | never => exact ⟨_, _, answers_pure.2 ⟨rfl, rfl⟩⟩
      | always => exact ⟨_, _, answers_pure.2 ⟨rfl, rfl⟩⟩
      | found cs =>
        have happ := htells.applied cs rfl
        refine containsAllBy_responds hfaith (fun t u ht hu => hequiv t u ht ?_) hwild
          happ.regular.not_wild m₁ hm₁
        obtain ⟨v, hv, hv'⟩ := happ.arg hu
        injection hv with hv
        exact hv ▸ hv'

/-! ### The partial order -/

/-- **Comparing applied types without variables affirms exactly what is beneath.** -/
theorem affirms_iff (hs : s.Hierarchy) (ha : a.Applied s []) (hb : b.Applied s []) :
    (s.Affirms fun s => s.below a b) ↔ s.Beneath a.shape b.shape := by
  have hdecides : ∀ n, Decides (Memory.Faithful s) ((s.withDepth n).below a b)
      (s.Beneath a.shape b.shape) := fun n => by
    rw [below_withDepth]
    exact belowWithin_decides_beneath hs (.nil s) n ha hb (.nil s [] a)
  constructor
  · rintro ⟨_, depth, hyes⟩
    obtain ⟨m', hr⟩ := hyes depth (Nat.le_refl _) {} (Memory.faithful_empty s)
    exact (hdecides depth {} true m' (Memory.faithful_empty s) hr).2.1 rfl
  · refine fun h => ⟨fun n m r m' hm hr => (hdecides n m r m' hm hr).2.2 h, sizeOf b,
      fun n hn m hm => ?_⟩
    obtain ⟨r, m', hr⟩ := belowWithin_responds hs hb hn ha m hm
    rw [← below_withDepth] at hr
    obtain rfl := (hdecides n m r m' hm hr).2.2 h
    exact ⟨m', hr⟩

/-- One answer is enough for applied types without variables. -/
theorem affirms_of_answers (hs : s.Hierarchy) (ha : a.Applied s []) (hb : b.Applied s []) {n : Nat}
    (hm : m.Faithful s) (h : ((s.withDepth n).below a b).Answers m true m') :
    s.Affirms fun s => s.below a b := by
  rw [below_withDepth] at h
  exact (affirms_iff hs ha hb).2 ((belowWithin_decides_beneath hs (.nil s) n ha hb (.nil s [] a) m true
    m' hm h).2.1 rfl)

/-- **Comparing applied types without variables denies exactly what is not beneath.** -/
theorem denies_iff (hs : s.Hierarchy) (ha : a.Applied s []) (hb : b.Applied s []) :
    (s.Denies fun s => s.below a b) ↔ ¬ s.Beneath a.shape b.shape := by
  constructor
  · exact fun hno h => ((affirms_iff hs ha hb).2 h).not_denies hno
  · intro h
    have hdecides : ∀ n m r m', m.Faithful s → ((s.withDepth n).below a b).Answers m r m' →
        r = false := by
      intro n m r m' hm hr
      rw [below_withDepth] at hr
      have hiff := (belowWithin_decides_beneath hs (.nil s) n ha hb (.nil s [] a) m r m' hm hr).2
      exact Bool.eq_false_iff.2 fun hr => h (hiff.1 hr)
    refine ⟨hdecides, sizeOf b, fun n hn m hm => ?_⟩
    obtain ⟨r, m', hr⟩ := belowWithin_responds hs hb hn ha m hm
    rw [← below_withDepth] at hr
    obtain rfl := hdecides n m r m' hm hr
    exact ⟨m', hr⟩

/-- **Subtyping of applied types without variables is a partial order, and it is decided.** From some
depth on every comparison of two such types answers, always the same; equal types are below each
other, two types that are below each other are equal, and the order is transitive. -/
theorem below_partialOrder (hs : s.Hierarchy) :
    (∀ a b, a.Applied s [] → b.Applied s [] →
      (s.Affirms fun s => s.below a b) ∨ s.Denies fun s => s.below a b) ∧
    (∀ a a', a.Applied s [] → a.equal a' = true → s.Affirms fun s => s.below a a') ∧
    (∀ a b, a.Applied s [] → b.Applied s [] → (s.Affirms fun s => s.below a b) →
      (s.Affirms fun s => s.below b a) → a.equal b = true) ∧
    ∀ a b c, a.Applied s [] → b.Applied s [] → c.Applied s [] → (s.Affirms fun s => s.below a b) →
      (s.Affirms fun s => s.below b c) → s.Affirms fun s => s.below a c := by
  refine ⟨fun a b ha hb => ?_, fun a a' ha heq => ?_, fun a b ha hb hab hba => ?_,
    fun a b c ha hb hc hab hbc => ?_⟩
  · rw [affirms_iff hs ha hb, denies_iff hs ha hb]
    exact Classical.em _
  · rw [Ty.equal, Bool.and_eq_true] at heq
    have hshape : a.shape = a'.shape := Ty.shape_eq_of_sameShape heq.2 fun v hv => by
      rw [ha.closed] at hv
      cases hv
    rw [affirms_iff hs ha (.of_shape (hshape ▸ ha.shape)), ← hshape]
    exact .self ha
  · rw [affirms_iff hs ha hb] at hab
    rw [affirms_iff hs hb ha] at hba
    exact ha.equal_of_shape (hab.antisymm hs (.nil s) ha.shape hba)
  · rw [affirms_iff hs ha hb] at hab
    rw [affirms_iff hs hb hc] at hbc
    exact (affirms_iff hs ha hc).2 (hab.trans hs.object hbc)

/-- Two ways lead from `Ring<E>` to `Iterable<E>`, one through `List<E>` and one through `Queue<E>`;
`Ring<Integer>` is below `Iterable<Integer>` and not below `Iterable<Number>`. -/
theorem below_partialOrder_ring :
    let queue : Definition := { name := "Queue", params := [⟨"E", ""⟩], parents := ["Iterable<E>"] }
    let ring : Definition :=
      { name := "Ring", params := [⟨"E", ""⟩], parents := ["List<E>", "Queue<E>"] }
    let s : Setting := { catalog := .extended [queue, ring] }
    let of : Nat → String → String → Ty := fun i decl arg =>
      .nominal ⟨.given i, [0]⟩ decl [.type (.nominal ⟨.given i, [1]⟩ arg [])]
    let integers := of 1 "Iterable" "Integer"
    let numbers := of 2 "Iterable" "Number"
    s.Hierarchy ∧ (s.Affirms fun s => s.below (of 0 "Ring" "Integer") integers) ∧
      s.Denies fun s => s.below (of 0 "Ring" "Integer") numbers := by
  intro queue ring s of integers numbers
  obtain ⟨horder, hdecls, hcoherent, hring, hintegers, hnumbers, hyes, hno⟩ : s.catalog.InOrder ∧
      (∀ d ∈ s.catalog.decls, (d.vars.map TypeVar.name).Nodup ∧
        ∀ n ∈ d.parents, n.toTy.isApplied s d.vars = true) ∧ s.isCoherent = true ∧
      (of 0 "Ring" "Integer").isApplied s [] = true ∧ integers.isApplied s [] = true ∧
      numbers.isApplied s [] = true ∧
      (((s.withDepth 20).below (of 0 "Ring" "Integer") integers).outcome {}).1.map id = .ok true ∧
      (((s.withDepth 20).below (of 0 "Ring" "Integer") numbers).outcome {}).1.map (!·) = .ok true := by
    decide +kernel
  have hs : s.Hierarchy := .of_grown (Catalog.grown_extended _) horder hdecls hcoherent
  have hdecided := (below_partialOrder hs).1 (of 0 "Ring" "Integer")
  refine ⟨hs, (hdecided integers (.of_isApplied hring) (.of_isApplied hintegers)).resolve_right ?_,
    (hdecided numbers (.of_isApplied hring) (.of_isApplied hnumbers)).resolve_left ?_⟩
  · rintro ⟨hdenied, -⟩
    obtain ⟨r, m', hr, rfl⟩ := exists_answers hyes
    cases hdenied 20 {} true m' (Memory.faithful_empty s) hr
  · rintro ⟨haffirmed, -⟩
    obtain ⟨r, m', hr, hr'⟩ := exists_answers hno
    rw [haffirmed 20 {} r m' (Memory.faithful_empty s) hr] at hr'
    cases hr'

end Setting
end Generics
