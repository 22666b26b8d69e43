/-
# Captured types pass the check

An applied declaration that passed the check is captured, and what comes of it is checked: it is not refused
(`Setting.capture_rechecks`). Where a type was given, the check asks once more what it asked before, and a yes
lasts (`Ty.check_again`). Where a wildcard stood, a variable takes its place, and it is asked to be below the
bound of the parameter, with the captured arguments put in. The bound of the variable was put together from
just that, but from a copy that was built when the variable was captured (`Captures.fitting`).

So it matters that types are below their copies. Two conditions ensure it: primitives stand in the type, and
in the bounds of parameters, only as components of arrays, and declarations in bounds and supertypes have the
right numbers of arguments. Neither the check nor declaring asks for the first one, and without it a captured
type is refused (`Setting.capture_refused`).
-/

import Generics.Proofs.Aptness
import Generics.Proofs.Fittings
import Generics.Proofs.Transparency
import Generics.Proofs.Variance
import Generics.Proofs.Views

namespace Generics

/-! ## Types with the right numbers of arguments -/

section Regular

variable {s : Setting}

mutual
/-- A flat and sparing type with the right numbers of arguments is regular. -/
theorem Ty.Regular.of_counted : ∀ {t : Ty}, t.Counted s.Applies → t.isFlat = true → t.sparing = true →
    t.Regular s .full
  | .prim _, _, _, h => by simp [Ty.sparing] at h
  | .null, _, _, _ => by
    rw [Ty.Regular]
    trivial
  | .nominal _ _ as, hc, hf, h => by
    rw [Ty.Counted] at hc
    rw [Ty.isFlat] at hf
    rw [Ty.sparing] at h
    rw [Ty.Regular]
    exact ⟨hc.1, Arg.RegularAll.of_counted hc.2 hf h⟩
  | .array e, hc, hf, h => by
    rw [Ty.Counted] at hc
    rw [Ty.isFlat] at hf
    rw [Ty.sparing, Bool.or_eq_true] at h
    rw [Ty.Regular]
    exact h.imp_right (Ty.Regular.of_counted hc hf)
  | .inter _ ms, hc, hf, h => by
    rw [Ty.Counted] at hc
    rw [Ty.isFlat] at hf
    rw [Ty.sparing] at h
    rw [Ty.Regular]
    exact ⟨rfl, Ty.RegularAll.of_counted hc hf h⟩
  | .var _, _, _, _ => by
    rw [Ty.Regular]
    trivial

/-- A flat argument without primitive types is regular if declarations in it are applied to right
numbers of arguments. -/
theorem Arg.Regular.of_counted : ∀ {a : Arg}, a.Counted s.Applies → a.isFlat = true →
    a.sparing = true → a.Regular s .full
  | .type t, hc, hf, h => by
    rw [Arg.Counted] at hc
    rw [Arg.isFlat] at hf
    rw [Arg.sparing] at h
    rw [Arg.Regular]
    exact Ty.Regular.of_counted hc hf h
  | .wild u l, hc, hf, h => by
    rw [Arg.Counted] at hc
    rw [Arg.isFlat, Bool.and_eq_true] at hf
    rw [Arg.sparing, Bool.and_eq_true] at h
    rw [Arg.Regular]
    exact ⟨rfl, Ty.Regular.of_counted hc.1 hf.1 h.1, Ty.Regular.of_counted hc.2 hf.2 h.2⟩

/-- The same for the members of an intersection. -/
theorem Ty.RegularAll.of_counted : ∀ {ts : List Ty}, Ty.CountedAll s.Applies ts → Ty.allFlat ts = true →
    Ty.allSparing ts = true → Ty.RegularAll s .full ts
  | [], _, _, _ => by
    rw [Ty.RegularAll]
    trivial
  | t :: ts, hc, hf, h => by
    rw [Ty.CountedAll] at hc
    rw [Ty.allFlat, Bool.and_eq_true, Bool.and_eq_true, Bool.not_eq_true'] at hf
    rw [Ty.allSparing, Bool.and_eq_true] at h
    rw [Ty.RegularAll]
    exact ⟨⟨hf.1.1, Ty.Regular.of_counted hc.1 hf.1.2 h.1⟩, Ty.RegularAll.of_counted hc.2 hf.2 h.2⟩

/-- The same for arguments. -/
theorem Arg.RegularAll.of_counted : ∀ {as : List Arg}, Arg.CountedAll s.Applies as →
    Arg.allFlat as = true → Arg.allSparing as = true → Arg.RegularAll s .full as
  | [], _, _, _ => by
    rw [Arg.RegularAll]
    trivial
  | a :: as, hc, hf, h => by
    rw [Arg.CountedAll] at hc
    rw [Arg.allFlat, Bool.and_eq_true] at hf
    rw [Arg.allSparing, Bool.and_eq_true] at h
    rw [Arg.RegularAll]
    exact ⟨Arg.Regular.of_counted hc.1 hf.1 h.1, Arg.RegularAll.of_counted hc.2 hf.2 h.2⟩
end

mutual
/-- A regular type is flat. -/
theorem Ty.Regular.isFlat : ∀ {t : Ty}, t.Regular s .full → t.isFlat = true
  | .prim _, h => by cases h.not_prim
  | .null, _ => by rw [Ty.isFlat]
  | .nominal _ _ as, h => by
    rw [Ty.Regular] at h
    rw [Ty.isFlat, Arg.RegularAll.allFlat h.2]
  | .array e, h => by
    rw [Ty.Regular] at h
    rw [Ty.isFlat]
    rcases h with hprim | h
    · cases e with
      | prim p => rw [Ty.isFlat]
      | _ => cases hprim
    · exact h.isFlat
  | .inter _ ms, h => by
    rw [Ty.Regular] at h
    rw [Ty.isFlat, Ty.RegularAll.allFlat h.2]
  | .var _, _ => by rw [Ty.isFlat]

/-- Regular arguments are flat. -/
theorem Arg.Regular.isFlat : ∀ {a : Arg}, a.Regular s .full → a.isFlat = true
  | .type t, h => by
    rw [Arg.Regular] at h
    rw [Arg.isFlat, h.isFlat]
  | .wild u l, h => by
    rw [Arg.Regular] at h
    rw [Arg.isFlat, h.2.1.isFlat, h.2.2.isFlat, Bool.and_self]

/-- Regular members are flat. -/
theorem Ty.RegularAll.allFlat : ∀ {ts : List Ty}, Ty.RegularAll s .full ts → Ty.allFlat ts = true
  | [], _ => by rw [Ty.allFlat]
  | t :: ts, h => by
    rw [Ty.RegularAll] at h
    rw [Ty.allFlat, h.1.1, h.1.2.isFlat, Ty.RegularAll.allFlat h.2, Bool.not_false, Bool.and_self,
      Bool.and_self]

/-- Regular arguments are flat, all of them. -/
theorem Arg.RegularAll.allFlat : ∀ {as : List Arg}, Arg.RegularAll s .full as → Arg.allFlat as = true
  | [], _ => by rw [Arg.allFlat]
  | a :: as, h => by
    rw [Arg.RegularAll] at h
    rw [Arg.allFlat, h.1.isFlat, Arg.RegularAll.allFlat h.2, Bool.and_self]
end

/-- Where declared types have the right numbers of arguments, the bounds of parameters are regular. -/
theorem Setting.Upright.upper_regular (hs : s.Upright) (hcounted : s.Counted) {d : Declaration}
    (hd : d ∈ s.catalog.decls) {v : TypeVar} (hv : v ∈ d.vars) : (s.catalog.upper v).Regular s .full :=
  .of_counted (hcounted.upper v) (hs.upper hd hv).1.flat (hs.upper hd hv).2

end Regular

namespace Setting

open Query

variable {s : Setting} {m m' : Memory}

/-! ## What stands in a captured type -/

section Stands

variable (hs : s.Upright) {site : Site} {d : String} {as : List Arg} {l : Lineage} {cs : List Captured}
  (ha : s.Stands m (.nominal site d as)) (hl : s.lineageOf d = some l)
  (hlen : as.length = l.params.length) (hcs : s.Captures ⟨site, d, as⟩ m m' cs)
include hs ha hl hlen hcs

/-- What takes the place of the arguments stands. -/
theorem Captures.stands {t : Ty} (ht : Arg.type t ∈ captureArgs m.lastCaptured as) : s.Stands m' t := by
  obtain ⟨i, hi⟩ := List.getElem?_of_mem ht
  obtain ⟨p, -, ⟨u, hx, heq⟩ | ⟨u, lo, x, hx, heq⟩⟩ := captureArgs_cases hlen hi
  · cases heq
    exact (ha.part (List.mem_of_getElem? hx) (List.mem_singleton.2 rfl)).since hcs.since
  · obtain ⟨-, y, site, bound, -, hcaptured, -, hle, -, -, -, hrises⟩ := hcs.argument hs ha hl hlen hx
    rw [hi] at hcaptured
    cases hcaptured
    refine ⟨by rw [Ty.Regular]; trivial, fun v hv => ?_⟩
    obtain rfl := List.mem_singleton.1 hv
    exact .captured hle List.not_mem_nil hrises

/-- The bound of a parameter stands, with the captured arguments put in. -/
theorem Captures.bound_stands (hcounted : s.Counted) {p : TypeVar} (hp : p ∈ l.params) {bound : Ty}
    (hbound : Ty.Replaced (Subst.zip l.params ((captureArgs m.lastCaptured as).filterMap Arg.type?))
      (s.catalog.upper p) bound) : s.Stands m' bound := by
  obtain ⟨e, he, hparams⟩ := hs.of_lineage hl
  have hstands : ∀ {v : Var} {u : Ty}, (Subst.zip l.params
      ((captureArgs m.lastCaptured as).filterMap Arg.type?)).lookup v = some u → s.Stands m' u :=
    fun hu => hcs.stands hs ha hl hlen (mem_types (Subst.mem_of_lookup_zip hu))
  refine ⟨hbound.regular s .full (hs.upper_regular hcounted he (hparams ▸ hp)) fun v _ u hu =>
    (hstands hu).regular, fun v hv => ?_⟩
  rw [← Ty.vars_shape, hbound.shape, Ty.mem_vars_rebuild] at hv
  obtain ⟨w, hw, hv⟩ := hv
  rw [Subst.image] at hv
  cases hlookup : (Subst.zip l.params ((captureArgs m.lastCaptured as).filterMap Arg.type?)).lookup w with
  | some u =>
    rw [hlookup] at hv
    exact (hstands hlookup).vars v (Ty.vars_shape u ▸ hv)
  | none =>
    rw [hlookup] at hv
    obtain ⟨q, hq, rfl⟩ := ((hs.upper he (hparams ▸ hp)).1.vars w hw).mem
    obtain rfl := List.mem_singleton.1 hv
    exact rises_param hs he hq fun _ hk => absurd hk List.not_mem_nil

end Stands

/-! ## Applied declarations -/

variable {depth : Nat}

/-- What an applied declaration that passed the check was asked. -/
theorem check_nominal_inv {site : Site} {d : String} {as : List Arg} {l l' : Memory} (hl : l.Numbered s)
    (h : ((Ty.nominal site d as).check (s.withDepth depth)).Answers l () l') :
    ∃ lin, s.lineageOf d = some lin ∧ lin.params.find? s.catalog.selfBounded = none ∧
      (as ≠ [] → as.length = lin.params.length ∧ ∃ l₁ l₂, l.Precedes s l₁ ∧
        (Arg.checkAll (s.withDepth depth) ⟨site, d, as⟩ as).Answers l₁ () l₂ ∧
          ((s.withDepth depth).checkFit ⟨site, d, as⟩ lin.params).Answers l₂ () l') := by
  rw [Ty.check] at h
  obtain ⟨ps, l₁, hps, h⟩ := answers_bind.1 h
  have hl₁ := (checkedParams_precedes s depth l _).answers hl.refl hps
  obtain ⟨lin, hlin, rfl⟩ := checkedParams_answers (s := s.withDepth depth) hl.faithful hps
  refine ⟨lin, hlin, checkedParams_none (s := s.withDepth depth) hps, fun hargs => ?_⟩
  rw [if_neg (by simpa using hargs)] at h
  split at h
  · exact absurd h answers_throw
  · next hlen =>
    obtain ⟨_, l₂, hall, hfit⟩ := answers_bind.1 h
    exact ⟨Decidable.not_not.1 hlen, l₁, l₂, hl₁, hall, hfit⟩

/-- The check of an applied declaration succeeds if those of its arguments do, and it is captured so that they
fit. -/
theorem check_nominal_succeeds (hcounted : s.Counted) {k r : Memory} {site : Site} {d : String}
    {as : List Arg} {lin : Lineage} (hlin : s.lineageOf d = some lin)
    (hself : lin.params.find? s.catalog.selfBounded = none)
    (hcount : as ≠ [] → as.length = lin.params.length) (hargs : ∀ a ∈ as, a.Counted s.Applies)
    (hall : as ≠ [] → ∀ r, k.Proceeds s r →
      Succeeds r (Arg.checkAll (s.withDepth depth) ⟨site, d, as⟩ as) fun _ r' => k.Proceeds s r')
    (hfit : as ≠ [] → ∀ r c r', k.Proceeds s r → (s.capture ⟨site, d, as⟩).Answers r c r' →
      s.FittingAll r' depth lin.params as c.args) (hr : k.Proceeds s r) :
    Succeeds r ((Ty.nominal site d as).check (s.withDepth depth)) fun _ r' => k.Proceeds s r' := by
  obtain ⟨r₁, hparams, hstays⟩ := (params_settles hlin).stays hr.counted.faithful
  have hchecked : ((s.withDepth depth).checkedParams ⟨site, d, as⟩).Answers r lin.params r₁ := by
    refine answers_bind.2 ⟨lin.params, r₁, hparams, ?_⟩
    rw [show lin.params.find? (s.withDepth depth).catalog.selfBounded = none from hself]
    exact answers_pure.2 ⟨rfl, rfl⟩
  have hr₁ : k.Proceeds s r₁ :=
    ⟨(checkedParams_precedes s depth k _).answers hr.precedes hchecked, hr.counted.stays hstays⟩
  rw [Ty.check]
  refine .bind (.inl ⟨_, r₁, hchecked, ?_⟩)
  dsimp only
  by_cases hempty : as = []
  · rw [if_pos (List.isEmpty_iff.2 hempty)]
    exact .pure hr₁
  · have hlen := hcount hempty
    rw [if_neg (by simpa using hempty), if_neg (not_not.2 hlen)]
    have hn : (Ty.nominal site d as).Counted s.Applies :=
      Ty.counted_nominal.2 ⟨⟨lin, hlin, .inr hlen⟩, hargs⟩
    exact .bind ((hall hempty r₁ hr₁).imp fun _ r₂ hr₂ =>
      checkFit_succeeds hcounted hlin hn hempty (hfit hempty) hr₂)

/-- Checking arguments succeeds if checking each of them does, whatever was asked before. -/
theorem checkAll_succeeds {k r : Memory} {n : Nominal} {as : List Arg}
    (h : ∀ a ∈ as, ∀ r, k.Proceeds s r →
      Succeeds r (a.check (s.withDepth depth) n) fun _ r' => k.Proceeds s r') (hr : k.Proceeds s r) :
    Succeeds r (Arg.checkAll (s.withDepth depth) n as) fun _ r' => k.Proceeds s r' := by
  induction as generalizing r with
  | nil => exact .pure hr
  | cons a as ih =>
    rw [Arg.checkAll]
    exact .bind ((h a List.mem_cons_self r hr).imp fun _ r₁ hr₁ =>
      ih (fun b hb => h b (List.mem_cons_of_mem _ hb)) hr₁)

end Setting

/-! ## Checking again -/

section Again

open Query Setting

variable {s : Setting}

/-- After the memory, checking the type succeeds. -/
def Ty.Rechecks (s : Setting) (b : Memory) (t : Ty) : Prop :=
  ∀ depth m r, b.Precedes s m → m.Proceeds s r →
    Succeeds r (t.check (s.withDepth depth)) fun _ r' => m.Proceeds s r'

/-- After the memory, checking the argument succeeds. -/
def Arg.Rechecks (s : Setting) (b : Memory) (a : Arg) : Prop :=
  ∀ depth n m r, b.Precedes s m → m.Proceeds s r →
    Succeeds r (a.check (s.withDepth depth) n) fun _ r' => m.Proceeds s r'

/-- What checks after a memory checks after every later one. -/
theorem Ty.Rechecks.later {a b : Memory} {t : Ty} (h : t.Rechecks s a) (hab : a.Precedes s b) :
    t.Rechecks s b := fun depth m r hm => h depth m r (hab.trans hm)

/-- The same for arguments. -/
theorem Arg.Rechecks.later {a b : Memory} {x : Arg} (h : x.Rechecks s a) (hab : a.Precedes s b) :
    x.Rechecks s b := fun depth n m r hm => h depth n m r (hab.trans hm)

/-- An argument that is a type checks if the type does and is not primitive. -/
theorem Arg.Rechecks.type {b : Memory} {t : Ty} (hprim : t.isPrim = false) (h : t.Rechecks s b) :
    (Arg.type t).Rechecks s b := by
  intro depth n
  rw [Arg.check_type (s.withDepth depth) n hprim]
  exact h depth

section Precedes

variable (s : Setting) (depth : Nat) (m : Memory)

/-- Checking a type only learns. -/
theorem Ty.check_precedes (t : Ty) : Preserves (m.Precedes s) (t.check (s.withDepth depth)) :=
  (t.check_composed (Realm.closed_all _) t.in_all).preserves (keeps_precedes_withDepth depth m)

/-- Checking the members of an intersection only learns. -/
theorem Ty.checkAll_precedes (ts : List Ty) :
    Preserves (m.Precedes s) (Ty.checkAll (s.withDepth depth) ts) :=
  (Ty.checkAll_composed (Realm.closed_all _) ts fun t _ => t.in_all).preserves
    (keeps_precedes_withDepth depth m)

/-- Checking arguments only learns. -/
theorem Arg.checkAll_precedes (n : Nominal) (as : List Arg) :
    Preserves (m.Precedes s) (Arg.checkAll (s.withDepth depth) n as) :=
  (Arg.checkAll_composed (Realm.closed_all _) n as fun a _ => a.in_all).preserves
    (keeps_precedes_withDepth depth m)

end Precedes

/-- Where the bounds of a captured variable were found to fit together, its check succeeds. -/
theorem capturedFits_again (hs : s.Upright) (hcounted : s.Counted) {k a b : Memory} {depth id : Nat}
    (hk : k.Numbered s) (hborne : s.Borne k (.var (.captured id))) (ha : k.Precedes s a)
    (h : ((s.withDepth depth).capturedFits id).Answers a true b) : (Ty.var (.captured id)).Rechecks s b := by
  have hid : id ≤ k.lastCaptured := (hborne.origins (.capture id) (List.mem_singleton.2 rfl)).1
  have hbounds : s.Borne k (k.lower id) ∧ s.Borne k (k.upper id) :=
    ⟨hborne.bound (List.mem_singleton.2 rfl) (List.mem_cons_of_mem _ (List.mem_singleton.2 rfl)),
      hborne.bound (List.mem_singleton.2 rfl) List.mem_cons_self⟩
  simp only [capturedFits, below_withDepth] at h
  obtain ⟨_, l, hget, hyes⟩ := answers_bind.1 h
  obtain ⟨rfl, rfl⟩ := answers_get.1 hget
  rw [ha.since.lower hid, ha.since.upper hid] at hyes
  have hconceded : s.Conceded k [] (k.lower id) (k.upper id) := ⟨depth, l, b, ha, hyes⟩
  have hb := ha.trans (((keeps_precedes s l).belowWithin depth [] _ _).answers ha.numbered.refl hyes)
  intro depth' m r hm hr
  have hsince := ((hb.trans hm).trans hr.precedes).since
  rw [Ty.check]
  simp only [capturedFits, below_withDepth, bind_assoc]
  refine .bind (.get (.bind ?_))
  rw [hsince.lower hid, hsince.upper hid]
  refine (below_succeeds hcounted (hsince.lower hid ▸ hr.counted.lower id)
    (hsince.upper hid ▸ hr.counted.upper id) hr
    (hconceded.persists hs hk (hb.trans hm) hbounds.1 hbounds.2 (.nil _ _))).imp ?_
  rintro _ r' ⟨rfl, hr'⟩
  exact .pure hr'

variable {k : Memory}

/-- What the check of an applied declaration found: its arguments pass, and they fit their parameters whenever
it is captured later. -/
theorem Setting.check_nominal_again (hs : s.Upright) (hcounted : s.Counted) {n : Nominal} {depth : Nat}
    {a b : Memory} (hborne : s.Borne k n.toTy) (ha : k.Precedes s a)
    (h : (n.toTy.check (s.withDepth depth)).Answers a () b) :
    ∃ lin, s.lineageOf n.decl = some lin ∧ lin.params.find? s.catalog.selfBounded = none ∧
      n.toTy.Counted s.Applies ∧ (n.args ≠ [] → n.args.length = lin.params.length ∧
        (∃ l l', k.Precedes s l ∧ (Arg.checkAll (s.withDepth depth) n n.args).Answers l () l' ∧
          l'.Precedes s b) ∧
        ∀ r c r', b.Precedes s r → (s.capture n).Answers r c r' → ∀ depth,
          s.FittingAll r' depth lin.params n.args c.args) := by
  have hn := (n.toTy.check_ensures (asks_faithful (s.withDepth depth))).answers a () ha.faithful
    (congrArg Prod.fst h)
  obtain ⟨lin, hlin, hself, hrun⟩ := check_nominal_inv ha.numbered h
  refine ⟨lin, hlin, hself, hn, fun hne => ?_⟩
  obtain ⟨hlen, l₁, l₂, hl₁, hall, hfit⟩ := hrun hne
  have hl₂ := (Arg.checkAll_precedes s depth l₁ n n.args).answers hl₁.numbered.refl hall
  refine ⟨hlen, ⟨l₁, l₂, ha.trans hl₁, hall,
    (checkFit_precedes s depth l₂ n lin.params).answers hl₂.numbered.refl hfit⟩, fun r c' r' hr hagain => ?_⟩
  obtain ⟨c, l₃, honce, hl₃, hfitted⟩ := checkFit_fitted hlin hl₂.numbered hfit
  have hcaptures : s.Recaptures n l₂ l₃ c r r' c' := {
    numbered := hl₂.numbered
    spared := hborne.later ((ha.trans hl₁).trans hl₂) (capture_precedes hl₂.numbered honce)
    once := honce
    between := hl₃.trans hr
    again := hagain }
  exact hcaptures.fitting hs hcounted hlin hn hfitted

mutual
/-- **A type that passed the check passes it again.** -/
theorem Ty.check_again (hs : s.Upright) (hcounted : s.Counted) (hk : k.Numbered s) :
    ∀ {t : Ty} {depth : Nat} {a b : Memory}, s.Borne k t → k.Precedes s a →
      (t.check (s.withDepth depth)).Answers a () b → t.Rechecks s b
  | .prim _, _, _, _, _, _, _ => fun _ _ _ _ hr => .pure hr
  | .null, _, _, _, _, _, _ => fun _ _ _ _ hr => .pure hr
  | .nominal site d as, depth, a, b, hborne, ha, h => by
    intro depth' m r hm hr
    obtain ⟨lin, hlin, hself, hn, hrun⟩ := check_nominal_again hs hcounted (n := ⟨site, d, as⟩) hborne ha h
    refine check_nominal_succeeds hcounted hlin hself (fun hne => (hrun hne).1) (Ty.counted_nominal.1 hn).2
      (fun hne r hr => ?_) (fun hne r c r' hr hcapture => ?_) hr
    · obtain ⟨-, ⟨l, l', hl, hall, hb⟩, -⟩ := hrun hne
      have hagain := Arg.checkAll_again hs hcounted hk (fun x hx t ht => hborne.part hx ht) hl hall
      exact checkAll_succeeds (fun x hx r hr => (hagain x hx).later hb depth' _ m r hm hr) hr
    · exact (hrun hne).2.2 r c r' (hm.trans hr.precedes) hcapture depth'
  | .array e, _, _, _, hborne, ha, h => by
    rw [Ty.check] at h
    intro depth' m r hm hr
    rw [Ty.check]
    exact Ty.check_again hs hcounted hk hborne.elem ha h depth' m r hm hr
  | .inter _ ms, _, _, _, hborne, ha, h => by
    rw [Ty.check] at h
    intro depth' m r hm hr
    rw [Ty.check]
    exact Ty.checkAll_again hs hcounted hk (fun t ht => hborne.member ht) ha h depth' m r hm hr
  | .var (.declared _), _, _, _, _, _, _ => fun _ _ _ _ hr => .pure hr
  | .var (.captured id), _, _, _, hborne, ha, h => by
    rw [Ty.check] at h
    obtain ⟨fits, l, hfits, h⟩ := answers_bind.1 h
    cases fits with
    | false =>
      obtain ⟨_, _, _, h⟩ := answers_bind.1 h
      exact absurd h answers_throw
    | true =>
      obtain ⟨-, rfl⟩ := answers_pure.1 h
      exact capturedFits_again hs hcounted hk hborne ha hfits

/-- **Members that were checked once check again**, in every later memory. -/
theorem Ty.checkAll_again (hs : s.Upright) (hcounted : s.Counted) (hk : k.Numbered s) :
    ∀ {ts : List Ty} {depth : Nat} {a b : Memory}, (∀ t ∈ ts, s.Borne k t) → k.Precedes s a →
      (Ty.checkAll (s.withDepth depth) ts).Answers a () b → ∀ depth m r, b.Precedes s m → m.Proceeds s r →
        Succeeds r (Ty.checkAll (s.withDepth depth) ts) fun _ r' => m.Proceeds s r'
  | [], _, _, _, _, _, _ => fun _ _ _ _ hr => .pure hr
  | t :: ts, depth, a, b, hborne, ha, h => by
    obtain ⟨ht, hts⟩ := List.forall_mem_cons.1 hborne
    rw [Ty.checkAll] at h
    obtain ⟨_, l, hfirst, h⟩ := answers_bind.1 h
    have hl := (t.check_precedes s depth k).answers ha hfirst
    have hb := (Ty.checkAll_precedes s depth l ts).answers hl.numbered.refl h
    intro depth' m r hm hr
    rw [Ty.checkAll]
    have hagain := (Ty.check_again hs hcounted hk ht ha hfirst).later hb
    exact .bind ((hagain depth' m r hm hr).imp fun _ r₁ hr₁ =>
      Ty.checkAll_again hs hcounted hk hts hl h depth' m r₁ hm hr₁)

/-- **Arguments that were checked once check again**, in every later memory. -/
theorem Arg.checkAll_again (hs : s.Upright) (hcounted : s.Counted) (hk : k.Numbered s) :
    ∀ {as : List Arg} {n : Nominal} {depth : Nat} {a b : Memory},
      (∀ x ∈ as, ∀ t ∈ x.parts, s.Borne k t) → k.Precedes s a →
        (Arg.checkAll (s.withDepth depth) n as).Answers a () b → ∀ x ∈ as, x.Rechecks s b
  | [], _, _, _, _, _, _, _ => fun _ hx => absurd hx List.not_mem_nil
  | x :: as, n, depth, a, b, hborne, ha, h => by
    obtain ⟨hx, has⟩ := List.forall_mem_cons.1 hborne
    rw [Arg.checkAll] at h
    obtain ⟨_, l, hfirst, h⟩ := answers_bind.1 h
    have hl : k.Precedes s l := ((Arg.check_composed (Realm.closed_all _) n x x.in_all).preserves
      (keeps_precedes_withDepth depth k)).answers ha hfirst
    have hb := (Arg.checkAll_precedes s depth l n as).answers hl.numbered.refl h
    exact List.forall_mem_cons.2 ⟨(Arg.check_again hs hcounted hk hx ha hfirst).later hb,
      Arg.checkAll_again hs hcounted hk has hl h⟩

/-- **An argument that was checked once checks again**, in every later memory. -/
theorem Arg.check_again (hs : s.Upright) (hcounted : s.Counted) (hk : k.Numbered s) :
    ∀ {x : Arg} {n : Nominal} {depth : Nat} {a b : Memory}, (∀ t ∈ x.parts, s.Borne k t) →
      k.Precedes s a → (x.check (s.withDepth depth) n).Answers a () b → x.Rechecks s b
  | .type t, n, depth, a, b, hborne, ha, h => by
    have hprim : t.isPrim = false := Arg.not_prim_of_check h
    rw [Arg.check_type (s.withDepth depth) n hprim] at h
    exact .type hprim (Ty.check_again hs hcounted hk (hborne t List.mem_cons_self) ha h)
  | .wild u lo, n, depth, a, b, hborne, ha, h => by
    rw [Arg.check] at h
    obtain ⟨_, l, hfirst, h⟩ := answers_bind.1 h
    have hl := (u.check_precedes s depth k).answers ha hfirst
    have hb := (lo.check_precedes s depth l).answers hl.numbered.refl h
    intro depth' n' m r hm hr
    rw [Arg.check]
    have hagain := (Ty.check_again hs hcounted hk (hborne u List.mem_cons_self) ha hfirst).later hb
    have hlower := hborne lo (List.mem_cons_of_mem _ List.mem_cons_self)
    exact .bind ((hagain depth' m r hm hr).imp fun _ r₁ hr₁ =>
      Ty.check_again hs hcounted hk hlower hl h depth' m r₁ hm hr₁)
end

end Again

/-! ## The captured type -/

namespace Setting

open Query

variable {s : Setting} {m m' : Memory} {n c : Nominal} {lin : Lineage} {cs : List Captured}

/-- **The variable captured for a wildcard is within the bound of its parameter.** -/
theorem Captures.fitting (hs : s.Upright) (hcounted : s.Counted) (ha : s.Stands m n.toTy)
    (hlin : s.lineageOf n.decl = some lin) (hlen : n.args.length = lin.params.length)
    (hn : n.toTy.Counted s.Applies) (hcs : s.Captures n m m' cs) {i : Nat} {p : TypeVar} {u l : Ty}
    (hp : lin.params[i]? = some p) (hi : n.args[i]? = some (.wild u l)) {a : Arg}
    (hc : (captureArgs m.lastCaptured n.args)[i]? = some a) (x : Arg) (depth : Nat) :
    s.Fitting m' depth
      (Subst.zip lin.params ((captureArgs m.lastCaptured n.args).filterMap Arg.type?)) p a x := by
  obtain ⟨q, y, site, bound, hq, hcaptured, -, hle, -, hupper, hrep, hrises⟩ :=
    hcs.argument hs ha hlin hlen hi
  rw [hp] at hq
  cases hq
  rw [hc] at hcaptured
  cases hcaptured
  have hparam := List.mem_of_getElem? hp
  have hσ : Subst.Counted s.Applies
      (Subst.zip lin.params ((captureArgs m.lastCaptured n.args).filterMap Arg.type?)) :=
    .zip _ (Arg.counted_types (Arg.counted_captureArgs _ (Ty.counted_nominal.1 hn).2))
  intro r hr
  have hreplace : Preserves (m'.Precedes s) (replace
      (Subst.zip lin.params ((captureArgs m.lastCaptured n.args).filterMap Arg.type?)) (s.catalog.upper p)) :=
    (replace_composed (s := s) (K := .all) (fun _ t _ => t.in_all) (Ty.in_all _)).preserves
      (keeps_precedes s m')
  simp only [argFits, below_withDepth]
  refine .bind ((Succeeds.of_goes (replace_goes hσ (hcounted.upper p)) hreplace hr).imp ?_)
  rintro b r₁ ⟨hb, hbc, hr₁⟩
  obtain ⟨hrep', -⟩ := replace_answers hr.counted.faithful hb
  have hstands := hcs.bound_stands hs ha hlin hlen hcounted hparam hrep
  have hstands' := hcs.bound_stands hs ha hlin hlen hcounted hparam hrep'
  have hsame : bound.sameShape b = true :=
    Ty.sameShape_of_shape hstands.regular.isFlat hstands'.regular.isFlat (hrep.shape.trans hrep'.shape.symm)
  exact below_succeeds hcounted Ty.counted_var hbc hr₁ fun r answer r' hr =>
    upper_granted hs (fun n _ => copy_granted hs n) hle (fun _ => .inr) hstands hstands' hsame hupper hrises
      r answer r' hr.since

/-- The captured arguments fit, each of them in the place of its parameter. -/
theorem Captures.fittingAll (hs : s.Upright) (hcounted : s.Counted) (ha : s.Stands m n.toTy)
    (hlin : s.lineageOf n.decl = some lin) (hlen : n.args.length = lin.params.length)
    (hn : n.toTy.Counted s.Applies) (hcs : s.Captures n m m' cs) {depth : Nat}
    (h : s.FittingAll m' depth lin.params n.args (captureArgs m.lastCaptured n.args)) :
    s.FittingAll m' depth lin.params (captureArgs m.lastCaptured n.args)
      (captureArgs m.lastCaptured n.args) := by
  intro i p a x hp hi hx
  rw [hi] at hx
  cases hx
  obtain ⟨-, -, ⟨t, hb, rfl⟩ | ⟨u, l, -, hb, -⟩⟩ := captureArgs_cases hlen hi
  · exact h i p _ _ hp hb hi
  · exact hcs.fitting hs hcounted ha hlin hlen hn hp hb hi _ depth

/-- The check of a captured argument succeeds, if those of the given ones do, and they fit. -/
theorem check_captured_succeeds {b r : Memory} {depth : Nat} (hlen : n.args.length = lin.params.length)
    (hall : ∀ x ∈ n.args, x.Rechecks s b) (hb : b.Precedes s m')
    (hfits : s.FittingAll m' depth lin.params n.args (captureArgs m.lastCaptured n.args)) {x : Arg}
    (hx : x ∈ captureArgs m.lastCaptured n.args) (n' : Nominal) (hr : m'.Proceeds s r) :
    Succeeds r (x.check (s.withDepth depth) n') fun _ r' => m'.Proceeds s r' := by
  obtain ⟨i, hi⟩ := List.getElem?_of_mem hx
  obtain ⟨p, hp, ⟨t, ha, rfl⟩ | ⟨u, l, y, ha, rfl⟩⟩ := captureArgs_cases hlen hi
  · exact hall _ (List.mem_of_getElem? ha) depth n' m' r hb hr
  · -- the check asks of the new variable what it asked of the wildcard
    rw [Arg.check_type _ _ rfl, Ty.check]
    refine .bind ((hfits i _ _ _ hp ha hi r hr).imp ?_)
    rintro _ r' ⟨rfl, hr'⟩
    exact .pure hr'

/-- **The captured type passes the check.** After the memory `k`, in which all that it bears is known, an
applied declaration passes the check. Primitives stand in it as components of arrays, and going up from its
variables comes to an end. Then it can be captured at any time, and whenever the captured type is checked, it
passes, or the check goes on for ever. -/
theorem capture_rechecks (hs : s.Upright) (hcounted : s.Counted) (hflat : n.toTy.isFlat = true)
    (hsparing : n.toTy.sparing = true) {k m₀ m₁ : Memory} {depth : Nat} (hk : k.Numbered s)
    (hborne : s.Borne k n.toTy) (hvars : ∀ v ∈ n.toTy.vars, s.Rises k [] (.var v)) (hm₀ : k.Precedes s m₀)
    (haccepted : (n.toTy.check (s.withDepth depth)).Answers m₀ () m₁) (hm : m₁.Proceeds s m) :
    ∃ c m', (s.capture n).Answers m c m' ∧ ∀ r, m'.Proceeds s r → ∀ depth,
      ((c.toTy.check (s.withDepth depth)).outcome r).1 = .ok () ∨
        ((c.toTy.check (s.withDepth depth)).outcome r).1 = .error .exhausted := by
  obtain ⟨lin, hlin, hself, hn, hrun⟩ := check_nominal_again hs hcounted hborne hm₀ haccepted
  have hcount : n.args = [] ∨ n.args.length = lin.params.length :=
    (Decidable.em (n.args = [])).imp_right fun hne => (hrun hne).1
  obtain ⟨c, m', hcapture⟩ := capture_total hm.counted.faithful hlin hcount
  obtain ⟨rfl, ⟨cs, hcs⟩, -⟩ := capture_fills hm.counted.faithful hcapture
  refine ⟨_, m', hcapture, fun r hr depth' => ?_⟩
  have hm₁ : m₀.Precedes s m₁ := (n.toTy.check_precedes s depth m₀).answers hm₀.numbered.refl haccepted
  have hm' := hm.precedes.trans (capture_precedes hm.precedes.numbered hcapture)
  have hregular := Ty.Regular.of_check hm₀.faithful hflat hsparing haccepted
  have hstands : s.Stands m n.toTy :=
    Stands.since ⟨hregular, hvars⟩ ((hm₀.trans hm₁).trans hm.precedes).since
  have hne : captureArgs m.lastCaptured n.args ≠ [] → n.args ≠ [] := by
    rintro h heq
    rw [heq] at h
    exact h rfl
  have hfits : n.args ≠ [] →
      s.FittingAll m' depth' lin.params n.args (captureArgs m.lastCaptured n.args) := fun hargs =>
    (hrun hargs).2.2 m _ m' hm.precedes hcapture depth'
  have hsucceeds : Succeeds r ((Ty.nominal n.site n.decl (captureArgs m.lastCaptured n.args)).check
      (s.withDepth depth')) fun _ r' => m'.Proceeds s r' := by
    refine check_nominal_succeeds hcounted hlin hself
      (fun h => (length_captureArgs _ _).trans (hrun (hne h)).1)
      (Arg.counted_captureArgs _ (Ty.counted_nominal.1 hn).2)
      (fun h r hr => checkAll_succeeds (fun x hx r hr => ?_) hr) (fun h r c r' hr hagain => ?_) hr
    · obtain ⟨hlen, ⟨l, l', hl, hall, hb⟩, -⟩ := hrun (hne h)
      have hagain := Arg.checkAll_again hs hcounted hk (fun y hy t ht => hborne.part hy ht) hl hall
      exact check_captured_succeeds hlen (fun y hy => (hagain y hy).later hb) hm' (hfits (hne h)) hx _ hr
    · rw [capture_captureArgs] at hagain
      obtain ⟨rfl, rfl⟩ := answers_pure.1 hagain
      have hall := hcs.fittingAll hs hcounted hstands hlin (hrun (hne h)).1 hn (hfits (hne h))
      exact fun i p a x hp ha hx => (hall i p a x hp ha hx).later hr
  rcases hsucceeds with ⟨⟨⟩, r', h, -⟩ | ⟨r', h⟩
  · exact .inl (congrArg Prod.fst h)
  · exact .inr (congrArg Prod.fst h)

/-- `Pair<?, Map<T, Node<?>>>`, where the first parameter of `Pair` is bounded by the second one. -/
theorem capture_rechecks_pairing :
    let s : Setting := { catalog := Catalog.pairing }
    let n : Nominal := ⟨⟨.given 0, [0]⟩, "Pair", [.wild .object .null, .type (.nominal ⟨.given 0, [1]⟩ "Map"
      [.type (.var (.declared ⟨"Node", "T", .param 0⟩)),
        .type (.nominal ⟨.given 0, [2]⟩ "Node" [.wild .object .null])])]⟩
    s.Upright ∧ s.Counted ∧ n.toTy.isFlat = true ∧ n.toTy.sparing = true ∧ s.Borne {} n.toTy ∧
      (∀ v ∈ n.toTy.vars, s.Rises {} [] (.var v)) ∧
      ∃ m, (n.toTy.check (s.withDepth 20)).Answers {} () m ∧ m.Proceeds s m ∧
        ∃ c m', (s.capture n).Answers m c m' ∧ m'.Proceeds s m' ∧
          ((c.toTy.check (s.withDepth 20)).outcome m').1 = .ok () := by
  intro s n
  have hall : (∀ d ∈ Catalog.pairing.decls, ∀ p ∈ d.params, p.upper.sparing = true) ∧
      (∀ t ∈ s.catalog.declaredTypes, s.acceptsWithin 20 t = true) ∧ n.toTy.isFlat = true ∧
      n.toTy.sparing = true ∧
      (∀ v ∈ n.toTy.vars, ∃ d ∈ s.catalog.decls, ∃ p ∈ d.vars, v = .declared p) ∧
      (∀ p ∈ n.toTy.origins, p = .given 0 ∨ p = .common) ∧
      ((n.toTy.check (s.withDepth 20)).outcome {}).1 = .ok () ∧
      ((n.toTy.check (s.withDepth 20) >>= fun _ => s.capture n >>= fun c =>
        c.toTy.check (s.withDepth 20)).outcome {}).1 = .ok () := by
    decide +kernel
  obtain ⟨hbounds, hdeclared, hflat, hsparing, hvars, hplaces, haccepts, hcaptured⟩ := hall
  have hs : s.Upright := .of_grown (Catalog.grown_extended _) _ hbounds (by decide)
  have hcounted : s.Counted := .of_grown (Catalog.grown_extended _) fun t ht =>
    (Accepts.of_within (hdeclared t ht)).counted
  have hk := Memory.numbered_empty s
  have hborne : s.Borne {} n.toTy := spared_of_params hs hk.refl
    (fun p hp => by rcases hplaces p hp with rfl | rfl <;> trivial) hvars
  have hrises : ∀ v ∈ n.toTy.vars, s.Rises {} [] (.var v) := by
    intro v hv
    obtain ⟨d, hd, p, hp, rfl⟩ := hvars v hv
    exact rises_param hs hd hp fun _ hk => absurd hk List.not_mem_nil
  obtain ⟨m, haccepted⟩ : ∃ m, (n.toTy.check (s.withDepth 20)).Answers {} () m :=
    ⟨_, Prod.ext haccepts rfl⟩
  have hasks : (s.withDepth 20).Asks (Memory.Counted (s.withDepth 20)) :=
    asks_counted ⟨hcounted.object, hcounted.upper, hcounted.parents⟩
  have hm : m.Proceeds s m :=
    ⟨((n.toTy.check_precedes s 20 {}).answers hk.refl haccepted).numbered.refl, Memory.Counted.withDepth_iff.1
      (Preserves.answers (n.toTy.check_ensures hasks).leaves
        (Memory.Counted.withDepth_iff.2 hcounted.empty) haccepted)⟩
  obtain ⟨c, m', hcapture, hrechecks⟩ := capture_rechecks hs hcounted hflat hsparing hk hborne hrises hk.refl
    haccepted hm
  have hn := (n.toTy.check_ensures (asks_faithful (s.withDepth 20))).answers {} () hk.faithful
    (congrArg Prod.fst haccepted)
  have hm' : m'.Proceeds s m' := ⟨(capture_precedes hm.precedes.numbered hcapture).numbered.refl,
    Preserves.answers (capture_goes hcounted hn).leaves hm.counted hcapture⟩
  -- the check of this captured type does not go on for ever
  rw [outcome_bind_of haccepted, outcome_bind_of hcapture] at hcaptured
  have hpasses : ((c.toTy.check (s.withDepth 20)).outcome m').1 = .ok () :=
    (hrechecks m' hm' 20).resolve_right (by rw [hcaptured]; simp)
  exact ⟨hs, hcounted, hflat, hsparing, hborne, hrises, m, haccepted, hm, c, m', hcapture, hm', hpasses⟩

/-- **A primitive as a bound spoils the captured type.** `List<? extends int>` passes the check, and the
captured type is refused, because its variable is below `int` and not below `Object`. So it is where a
parameter has a primitive as its bound: `Foo<String, ?>` passes, with `Foo` declared over `A` and
`B extends R<A, ?>`, and `R` over `A` and `N extends int`. The new variable is below `R<String, ?>`, which is
not below a copy of itself. -/
theorem capture_refused :
    (let s : Setting := { catalog := .standard }
    let n : Nominal := ⟨⟨.given 0, [0]⟩, "List", [.wild (.prim ⟨5⟩) .null]⟩
    ((n.toTy.check s).outcome {}).1 = .ok () ∧
      ((n.toTy.check s >>= fun _ => s.capture n >>= fun c => c.toTy.check s).outcome {}).1 =
        .error (.malformed "List<Cap#2>" "type argument Cap#2 is not within bounds of type variable E")) ∧
    let s : Setting := { catalog := .extended [
      { name := "R", params := [⟨"A", ""⟩, ⟨"N", "int"⟩] },
      { name := "Foo", params := [⟨"A", ""⟩, ⟨"B", "R<A, ?>"⟩] }] }
    let n : Nominal := ⟨⟨.given 0, [0]⟩, "Foo",
      [.type (.nominal ⟨.given 0, [1]⟩ "String" []), .wild .object .null]⟩
    s.catalog.has "Foo" = true ∧ ((n.toTy.check s).outcome {}).1 = .ok () ∧
      ((n.toTy.check s >>= fun _ => s.capture n >>= fun c => c.toTy.check s).outcome {}).1 =
        .error (.malformed "Foo<String, Cap#2>"
          "type argument Cap#2 is not within bounds of type variable B") := by
  decide +kernel

end Setting
end Generics
