/-
# Types that pass the check

The check of a type compares each argument with the bound of its parameter, and so it depends on how
deep comparisons may nest and on what was asked before. For closed plain types it comes to a property
of the type alone: `Ty.Apt` says that every declaration in it is applied to as many arguments as it
has parameters, or to none, that these are apt, and that they are within their bounds by derivations.
A closed plain type is accepted exactly if it is apt (`Setting.accepts_iff_apt`).
-/

import Generics.Proofs.Ground
import Generics.Proofs.Checks

namespace Generics

/-- The types are within the bounds of the parameters, with the types in the place of these. -/
def Setting.InBounds (s : Setting) (params : List TypeVar) (types : List Ty) : Prop :=
  ∀ x ∈ params.zip types, ∀ Γ, Below s Γ x.2.shape
    ((s.catalog.upper x.1).rebuild (Subst.zip params types).image)

mutual
/-- The declarations in a type are applied to arguments within bounds. -/
def Ty.Apt (s : Setting) : Ty → Prop
  | .prim _ => True
  | .null => True
  | .nominal _ decl args => Arg.AptAll s args ∧ ∃ l, s.lineageOf decl = some l ∧
      l.params.find? s.catalog.selfBounded = none ∧ (args = [] ∨ args.length = l.params.length ∧
        s.InBounds l.params (args.filterMap Arg.type?))
  | .array elem => elem.Apt s
  | .inter _ _ => False
  | .var _ => False

/-- An argument is an apt type, and no primitive. -/
def Arg.Apt (s : Setting) : Arg → Prop
  | .type t => t.isPrim = false ∧ t.Apt s
  | .wild _ _ => False

/-- All arguments are apt. -/
def Arg.AptAll (s : Setting) : List Arg → Prop
  | [] => True
  | a :: as => a.Apt s ∧ Arg.AptAll s as
end

/-- All arguments are apt if each one is. -/
theorem Arg.aptAll_iff {s : Setting} {as : List Arg} : Arg.AptAll s as ↔ ∀ a ∈ as, a.Apt s := by
  induction as with
  | nil => simp [Arg.AptAll]
  | cons a as ih => simp [Arg.AptAll, ih]

/-! ### Sites play no part -/

/-- Whether types are within bounds is a matter of their shapes. -/
theorem Setting.inBounds_shape {s : Setting} {params : List TypeVar} {types : List Ty} :
    s.InBounds params (types.map Ty.shape) ↔ s.InBounds params types := by
  simp only [Setting.InBounds, Setting.image_zip_shape, List.zip_map_right, List.mem_map,
    forall_exists_index, and_imp, forall_apply_eq_imp_iff₂, Prod.map, id, Ty.shape_shape]

mutual
/-- Whether a type is apt is a matter of its shape. -/
theorem Ty.apt_shape {s : Setting} : ∀ t : Ty, t.shape.Apt s ↔ t.Apt s
  | .prim _ => Iff.rfl
  | .null => Iff.rfl
  | .nominal st d as => by
    rw [Ty.shape, Ty.rebuild, Ty.Apt, Ty.Apt, Arg.aptAll_shape as, Arg.rebuildAll_eq_map]
    refine and_congr_right fun _ => exists_congr fun l => and_congr_right fun _ =>
      and_congr_right fun _ => ?_
    rw [List.map_eq_nil_iff, List.length_map]
    refine or_congr_right (and_congr_right fun _ => ?_)
    have htypes : (as.map (Arg.rebuild .var)).filterMap Arg.type? =
        (as.filterMap Arg.type?).map Ty.shape := Setting.types_shape as
    rw [htypes]
    exact Setting.inBounds_shape
  | .array elem => by
    rw [Ty.shape_array, Ty.Apt, Ty.Apt]
    exact Ty.apt_shape elem
  | .inter _ _ => Iff.rfl
  | .var _ => Iff.rfl

/-- Whether arguments are apt is a matter of their shapes. -/
theorem Arg.aptAll_shape {s : Setting} :
    ∀ as : List Arg, Arg.AptAll s (Arg.rebuildAll .var as) ↔ Arg.AptAll s as
  | [] => Iff.rfl
  | .type t :: as => by
    rw [Arg.rebuildAll, Arg.AptAll, Arg.AptAll, Arg.aptAll_shape as, Arg.rebuild, Arg.Apt, Arg.Apt]
    rw [show t.rebuild .var = t.shape from rfl, Ty.apt_shape t, Ty.isPrim_shape]
  | .wild _ _ :: as => by
    rw [Arg.rebuildAll, Arg.AptAll, Arg.AptAll, Arg.rebuild, Arg.Apt, Arg.Apt]
    simp
end

/-! ### What the check finds -/

section Check

open Query Setting

variable {s : Setting} {depth : Nat} {m m' : Memory}

/-- Parameters that pass the check are not bounded by themselves. -/
theorem Setting.checkedParams_none {n : Nominal} {ps : List TypeVar}
    (h : (s.checkedParams n).Answers m ps m') : ps.find? s.catalog.selfBounded = none := by
  obtain ⟨qs, m₁, hqs, h⟩ := answers_bind.1 h
  split at h
  · exact absurd h answers_throw
  · next hnone =>
    rw [answers_pure] at h
    rw [h.1]
    exact hnone

/-- Closed arguments of a declaration, and the bounds they are compared with. -/
structure Setting.Checks (s : Setting) (k : Fragment) (decl : String) (params : List TypeVar)
    (types : List Ty) : Prop where
  lineage : ∃ l, s.lineageOf decl = some l ∧ l.params = params
  length : types.length = params.length
  regular : ∀ t ∈ types, t.Regular s k ∧ t.vars = []

/-- The bound of a parameter with the arguments put in is closed. -/
theorem Setting.Checks.bound {k : Fragment} (hs : s.Regular k) {decl : String}
    {params : List TypeVar} {types : List Ty} (h : s.Checks k decl params types) {p : TypeVar}
    (hp : p ∈ params) {b : Ty} (hb : Ty.Replaced (Subst.zip params types) (s.catalog.upper p) b) :
    b.Regular s k ∧ b.vars = [] := by
  obtain ⟨l, hl, rfl⟩ := h.lineage
  obtain ⟨hreg, hvars⟩ := hs.bounds decl l hl p hp
  refine ⟨hb.regular s k hreg fun v _ u hu => (h.regular u (Subst.mem_of_lookup_zip hu)).1,
    List.eq_nil_iff_forall_not_mem.2 fun v hv => ?_⟩
  rcases hb.vars hv with ⟨hv, hnone⟩ | ⟨w, _, u, hu, hv⟩
  · obtain ⟨q, hq, rfl⟩ := hvars v hv
    have hsome := Subst.lookup_zip_isSome (Nat.le_of_eq h.length.symm) hq
    rw [hnone] at hsome
    cases hsome
  · rw [(h.regular u (Subst.mem_of_lookup_zip hu)).2] at hv
    cases hv

/-- Where arguments pass, each was found below the bound of its parameter. -/
theorem Setting.checkBounds_answers {n : Nominal} {σ : Subst} {ps : List TypeVar} {ts : List Ty}
    (hm : m.Faithful s) (h : ((s.withDepth depth).checkBounds n σ ps (ts.map .type)
      (ts.map .type)).Answers m () m') :
    ∀ x ∈ ps.zip ts, ∃ b m₁ m₂, Ty.Replaced σ (s.catalog.upper x.1) b ∧ m₁.Faithful s ∧
      (s.belowWithin depth [] x.2 b).Answers m₁ true m₂ := by
  induction ps generalizing ts m with
  | nil => intro x hx; cases hx
  | cons p ps ih =>
    cases ts with
    | nil => intro x hx; cases hx
    | cons t ts =>
      rw [List.map_cons, checkBounds] at h
      obtain ⟨b, m₁, hb, h⟩ := answers_bind.1 h
      obtain ⟨r, m₂, hr, h⟩ := answers_bind.1 h
      obtain ⟨hrep, hst⟩ := replace_answers hm hb
      rw [below_withDepth] at hr
      cases r with
      | false => exact absurd h answers_throw
      | true =>
        intro x hx
        rw [List.zip_cons_cons] at hx
        rcases List.mem_cons.1 hx with rfl | hx
        · exact ⟨b, m₁, m₂, hrep, hst.faithful, hr⟩
        · exact ih ((belowWithin_keepsFaith depth [] t b).answers hst.faithful hr) h x hx

/-- Arguments that pass are within their bounds. -/
theorem Setting.checkBounds_inBounds (hs : s.Regular .plain) {n : Nominal} {params : List TypeVar}
    {types : List Ty} (hc : s.Checks .plain n.decl params types) (hm : m.Faithful s)
    (h : ((s.withDepth depth).checkBounds n (Subst.zip params types) params (types.map .type)
      (types.map .type)).Answers m () m') : s.InBounds params types := by
  rintro ⟨p, t⟩ hx Γ
  obtain ⟨b, m₁, m₂, hrep, hm₁, hr⟩ := checkBounds_answers hm h _ hx
  obtain ⟨hp, ht⟩ := List.of_mem_zip hx
  obtain ⟨hbreg, hbvars⟩ := hc.bound hs hp hrep
  obtain ⟨htreg, htvars⟩ := hc.regular t ht
  have hbelow := ((decidesWithin hs depth).below m₁.scope _ t b
    (comparable_closed _ htreg hbreg htvars hbvars) m₁ true m₂ (within_self s hm₁) hr).2.1 rfl
  rw [← hrep.shape]
  exact (Ty.Closed.below_iff hs ⟨.inr htreg, htvars⟩ ⟨.inr hbreg, hbvars⟩ _ _).1 hbelow

/-- Arguments without wildcards are made of their types. -/
theorem Arg.map_types {as : List Arg} (h : ∀ a ∈ as, a.isWild = false) :
    (as.filterMap Arg.type?).map .type = as := by
  induction as with
  | nil => rfl
  | cons a as ih =>
    have hrest := ih fun b hb => h b (List.mem_cons_of_mem _ hb)
    cases a with
    | type t => rw [List.filterMap_cons_some (by rfl), List.map_cons, hrest]
    | wild u l => cases h _ List.mem_cons_self

/-- Closed plain arguments, one for each parameter, are ready to be compared with the bounds. -/
theorem Setting.Checks.of_args {st : Site} {decl : String} {l : Lineage} {args : List Arg}
    (hl : s.lineageOf decl = some l) (hlen : args.length = l.params.length)
    (hreg : (Ty.nominal st decl args).Regular s .plain) (hvars : (Ty.nominal st decl args).vars = []) :
    s.Checks .plain decl l.params (args.filterMap Arg.type?) where
  lineage := ⟨l, hl, rfl⟩
  length := (length_types hreg.not_wild).trans hlen
  regular t ht := by
    have hmem := mem_types ht
    rw [Ty.Regular, Arg.regularAll_iff] at hreg
    exact ⟨hreg.2 _ hmem, vars_of_parts hvars hmem List.mem_cons_self⟩

/-- Arguments without wildcards are not captured before they are compared with their bounds. -/
theorem Setting.checkFit_eq {n : Nominal} (hwild : ∀ a ∈ n.args, a.isWild = false)
    (params : List TypeVar) : (s.withDepth depth).checkFit n params = s.assignment n >>= fun σ =>
      (s.withDepth depth).checkBounds n σ params n.args n.args := by
  have hnone : n.hasWild = false := by
    rw [Nominal.hasWild, List.any_eq_false]
    exact fun a ha => by rw [hwild a ha]; simp
  have hcapture : (s.withDepth depth).capture n = pure n := by
    rw [capture, hnone]
    rfl
  rw [checkFit, hcapture]
  rfl

/-- An argument that is a type, but no primitive, is checked as this type. -/
theorem Arg.check_type (s : Setting) (n : Nominal) {t : Ty} (h : t.isPrim = false) :
    (Arg.type t).check s n = t.check s := by
  cases t with
  | prim p => cases h
  | _ => rfl

/-- A primitive does not pass as an argument. -/
theorem Arg.not_prim_of_check {n : Nominal} {t : Ty}
    (h : ((Arg.type t).check (s.withDepth depth) n).Answers m () m') : t.isPrim = false := by
  cases t with
  | prim p => exact absurd h answers_throw
  | _ => rfl

mutual
/-- **A closed plain type that passes the check is apt.** -/
theorem Ty.Apt.of_check (hs : s.Regular .plain) : ∀ {t : Ty} {m m' : Memory}, m.Faithful s →
    t.Regular s .plain → t.vars = [] → (t.check (s.withDepth depth)).Answers m () m' → t.Apt s
  | .prim _, _, _, _, _, _, _ => by rw [Ty.Apt]; trivial
  | .null, _, _, _, _, _, _ => by rw [Ty.Apt]; trivial
  | .nominal site decl args, m, m', hm, hreg, hvars, h => by
    rw [Ty.check] at h
    obtain ⟨ps, m₁, hps, h⟩ := answers_bind.1 h
    obtain ⟨l, hl, rfl⟩ := checkedParams_answers (s := s.withDepth depth) hm hps
    have hl : s.lineageOf decl = some l := hl
    have hm₁ := (checkedParams_keepsFaith (s := s.withDepth depth) _).answers hm hps
    have hself := checkedParams_none (s := s.withDepth depth) hps
    rw [Ty.Apt]
    split at h
    · next hargs =>
      rw [List.isEmpty_iff] at hargs
      subst hargs
      exact ⟨by rw [Arg.AptAll]; trivial, l, hl, hself, .inl rfl⟩
    · split at h
      · exact absurd h answers_throw
      · next hlen =>
        rw [ne_eq, not_not] at hlen
        obtain ⟨_, m₂, hall, h⟩ := answers_bind.1 h
        have hm₂ := (Arg.checkAll_keepsFaith (s := s.withDepth depth) _ args).answers hm₁ hall
        have hargs : Arg.RegularAll s .plain args := by
          rw [Ty.Regular] at hreg
          exact hreg.2
        refine ⟨Arg.AptAll.of_check hs hm₁ hargs hvars hall, l, hl, hself, .inr ⟨hlen, ?_⟩⟩
        rw [checkFit_eq hreg.not_wild] at h
        obtain ⟨σ, m₃, hσ, h⟩ := answers_bind.1 h
        obtain ⟨rfl, hst⟩ := assignment_answers (s := s) hl hm₂ hσ
        rw [paramsOf_eq hl] at h
        have hchecks := Checks.of_args hl hlen hreg hvars
        exact checkBounds_inBounds (n := ⟨site, decl, args⟩) hs hchecks hst.faithful
          (by rw [Arg.map_types hreg.not_wild]; exact h)
  | .array elem, _, _, hm, hreg, hvars, h => by
    rw [Ty.Regular] at hreg
    rw [Ty.Apt]
    cases hreg with
    | inl hprim =>
      cases elem with
      | prim p => rw [Ty.Apt]; trivial
      | _ => cases hprim
    | inr hreg => exact Ty.Apt.of_check hs hm hreg hvars h
  | .inter _ _, _, _, _, hreg, _, _ => by cases hreg.1
  | .var _, _, _, _, _, hvars, _ => by cases hvars

/-- Arguments that pass the check are apt. -/
theorem Arg.AptAll.of_check (hs : s.Regular .plain) : ∀ {as : List Arg} {n : Nominal} {m m' : Memory},
    m.Faithful s → Arg.RegularAll s .plain as → Arg.varsAll as = [] →
      (Arg.checkAll (s.withDepth depth) n as).Answers m () m' → Arg.AptAll s as
  | [], _, _, _, _, _, _, _ => by rw [Arg.AptAll]; trivial
  | .type t :: as, n, m, m', hm, hreg, hvars, h => by
    rw [Arg.RegularAll, Arg.Regular] at hreg
    rw [Arg.varsAll, Arg.vars, List.append_eq_nil_iff] at hvars
    rw [Arg.checkAll] at h
    obtain ⟨_, m₁, ha, has⟩ := answers_bind.1 h
    have hm₁ := (Arg.check_keepsFaith (s := s.withDepth depth) n (.type t)).answers hm ha
    have hprim := Arg.not_prim_of_check ha
    rw [Arg.check_type _ _ hprim] at ha
    rw [Arg.AptAll, Arg.Apt]
    exact ⟨⟨hprim, Ty.Apt.of_check hs hm hreg.1 hvars.1 ha⟩,
      Arg.AptAll.of_check hs hm₁ hreg.2 hvars.2 has⟩
  | .wild _ _ :: as, _, _, _, _, hreg, _, _ => by
    rw [Arg.RegularAll, Arg.Regular] at hreg
    cases hreg.1.1
end

/-! ### What passes the check -/

/-- The check passes, whatever was asked before, if comparisons may nest deep enough. -/
def Setting.Passes (s : Setting) (check : Setting → Query Unit) : Prop :=
  ∃ depth, ∀ n, depth ≤ n → ∀ m, m.Faithful s →
    ∃ m', (check (s.withDepth n)).Answers m () m' ∧ m'.Faithful s

namespace Setting.Passes

variable {check more : Setting → Query Unit}

/-- Checking nothing passes. -/
theorem pure : s.Passes fun _ => Pure.pure () := ⟨0, fun _ _ m hm => ⟨m, rfl, hm⟩⟩

/-- Two checks that pass do so one after the other. -/
theorem seq (h₁ : s.Passes check) (h₂ : s.Passes more) :
    s.Passes fun s => check s >>= fun _ => more s := by
  obtain ⟨d₁, h₁⟩ := h₁
  obtain ⟨d₂, h₂⟩ := h₂
  refine ⟨max d₁ d₂, fun n hn m hm => ?_⟩
  obtain ⟨m₁, ha₁, hm₁⟩ := h₁ n (Nat.le_trans (Nat.le_max_left _ _) hn) m hm
  obtain ⟨m₂, ha₂, hm₂⟩ := h₂ n (Nat.le_trans (Nat.le_max_right _ _) hn) m₁ hm₁
  exact ⟨m₂, answers_bind.2 ⟨_, _, ha₁, ha₂⟩, hm₂⟩

end Setting.Passes

/-- Arguments within their bounds pass. -/
theorem Setting.passes_checkBounds (hs : s.Regular .plain) (hacyc : s.Acyclic) {n : Nominal}
    {params : List TypeVar} {types : List Ty} (hc : s.Checks .plain n.decl params types)
    {ps : List TypeVar} {ts : List Ty} (hps : ∀ p ∈ ps, p ∈ params) (hts : ∀ t ∈ ts, t ∈ types)
    (h : ∀ x ∈ ps.zip ts, ∀ Γ, Below s Γ x.2.shape
      ((s.catalog.upper x.1).rebuild (Subst.zip params types).image)) :
    s.Passes fun s => s.checkBounds n (Subst.zip params types) ps (ts.map .type) (ts.map .type) := by
  induction ps generalizing ts with
  | nil => exact .pure
  | cons p ps ih =>
    cases ts with
    | nil => exact .pure
    | cons t ts =>
      obtain ⟨d₁, hdeep⟩ := DeepFor.of_below hs hacyc
        (h (p, t) (by rw [List.zip_cons_cons]; exact List.mem_cons_self) (Memory.scope {}))
      obtain ⟨d₂, hrest⟩ := ih (fun q hq => hps q (List.mem_cons_of_mem _ hq))
        (fun u hu => hts u (List.mem_cons_of_mem _ hu))
        (fun x hx => h x (by rw [List.zip_cons_cons]; exact List.mem_cons_of_mem _ hx))
      refine ⟨max d₁ d₂, fun n' hn m hm => ?_⟩
      obtain ⟨b, m₁, hb⟩ := replace_total (Subst.zip params types) (s.catalog.upper p) m
      obtain ⟨hrep, hst⟩ := replace_answers hm hb
      obtain ⟨hbreg, hbvars⟩ := hc.bound hs (hps p List.mem_cons_self) hrep
      obtain ⟨htreg, htvars⟩ := hc.regular t (hts t List.mem_cons_self)
      obtain ⟨m₂, hbelow, hm₂⟩ := hdeep t b rfl hrep.shape htreg hbreg htvars hbvars n'
        (Nat.le_trans (Nat.le_max_left _ _) hn) [] m₁ hst.faithful
      obtain ⟨m₃, hmore, hm₃⟩ := hrest n' (Nat.le_trans (Nat.le_max_right _ _) hn) m₂ hm₂
      refine ⟨m₃, ?_, hm₃⟩
      dsimp only
      rw [List.map_cons, checkBounds]
      refine answers_bind.2 ⟨b, m₁, hb, answers_bind.2 ⟨true, m₂, ?_, hmore⟩⟩
      rw [below_withDepth]
      exact hbelow

/-- Arguments within their bounds fit. -/
theorem Setting.passes_checkFit (hs : s.Regular .plain) (hacyc : s.Acyclic) {site : Site}
    {decl : String} {args : List Arg} {l : Lineage} (hl : s.lineageOf decl = some l)
    (hlen : args.length = l.params.length) (hreg : (Ty.nominal site decl args).Regular s .plain)
    (hvars : (Ty.nominal site decl args).vars = [])
    (h : s.InBounds l.params (args.filterMap Arg.type?)) :
    s.Passes fun s => s.checkFit ⟨site, decl, args⟩ l.params := by
  obtain ⟨depth, hbounds⟩ := passes_checkBounds (n := ⟨site, decl, args⟩) hs hacyc
    (Checks.of_args hl hlen hreg hvars) (fun _ => id) (fun _ => id) h
  rw [Arg.map_types hreg.not_wild] at hbounds
  refine ⟨depth, fun n hn m hm => ?_⟩
  dsimp only
  rw [checkFit_eq hreg.not_wild]
  obtain ⟨σ, m₁, hσ⟩ := assignment_total (n := ⟨site, decl, args⟩) hl hlen hreg.not_wild hm
  obtain ⟨rfl, hst⟩ := assignment_answers (s := s) (n := ⟨site, decl, args⟩) hl hm hσ
  obtain ⟨m₂, hpass, hm₂⟩ := hbounds n hn m₁ hst.faithful
  refine ⟨m₂, answers_bind.2 ⟨_, m₁, hσ, ?_⟩, hm₂⟩
  rw [paramsOf_eq hl]
  exact hpass

/-- An applied declaration passes if its arguments, unless it has none, pass and fit. -/
theorem Setting.passes_nominal {site : Site} {decl : String} {args : List Arg} {l : Lineage}
    (hl : s.lineageOf decl = some l) (hself : l.params.find? s.catalog.selfBounded = none)
    (h : args ≠ [] → args.length = l.params.length ∧ s.Passes fun s =>
      Arg.checkAll s ⟨site, decl, args⟩ args >>= fun _ => s.checkFit ⟨site, decl, args⟩ l.params) :
    s.Passes fun s => (Ty.nominal site decl args).check s := by
  have hparams : ∀ n m, m.Faithful s → ∃ m', ((s.withDepth n).checkedParams
      ⟨site, decl, args⟩).Answers m l.params m' ∧ m'.Faithful s := by
    intro n m hm
    obtain ⟨m', hparams, hst⟩ := (params_settles hl).stays hm
    refine ⟨m', answers_bind.2 ⟨l.params, m', hparams, ?_⟩, hst.faithful⟩
    simp only [show (s.withDepth n).catalog = s.catalog from rfl, hself]
    rfl
  by_cases hargs : args = []
  · refine ⟨0, fun n _ m hm => ?_⟩
    obtain ⟨m', hps, hm'⟩ := hparams n m hm
    refine ⟨m', ?_, hm'⟩
    dsimp only
    rw [Ty.check]
    refine answers_bind.2 ⟨_, _, hps, ?_⟩
    rw [if_pos (by rw [hargs]; rfl)]
    rfl
  · obtain ⟨hlen, depth, hrest⟩ := h hargs
    refine ⟨depth, fun n hn m hm => ?_⟩
    obtain ⟨m₁, hps, hm₁⟩ := hparams n m hm
    obtain ⟨m₂, hpass, hm₂⟩ := hrest n hn m₁ hm₁
    refine ⟨m₂, ?_, hm₂⟩
    dsimp only
    rw [Ty.check]
    refine answers_bind.2 ⟨_, _, hps, ?_⟩
    rw [if_neg (by rwa [List.isEmpty_iff]), if_neg (by rwa [ne_eq, not_not])]
    exact hpass

mutual
/-- **An apt type passes the check**, if it is closed and plain. -/
theorem Ty.Apt.passes (hs : s.Regular .plain) (hacyc : s.Acyclic) : ∀ {t : Ty}, t.Apt s →
    t.Regular s .plain → t.vars = [] → s.Passes fun s => t.check s
  | .prim _, _, _, _ => .pure
  | .null, _, _, _ => .pure
  | .nominal site decl args, h, hreg, hvars => by
    rw [Ty.Apt] at h
    obtain ⟨hall, l, hl, hself, hcount⟩ := h
    have hargs : Arg.RegularAll s .plain args := by
      rw [Ty.Regular] at hreg
      exact hreg.2
    refine passes_nominal hl hself fun hne => ?_
    obtain ⟨hlen, hbounds⟩ := hcount.resolve_left hne
    refine ⟨hlen, (Arg.AptAll.passes hs hacyc _ hall hargs hvars).seq ?_⟩
    exact passes_checkFit hs hacyc hl hlen hreg hvars hbounds
  | .array elem, h, hreg, hvars => by
    rw [Ty.Regular] at hreg
    rw [Ty.Apt] at h
    cases hreg with
    | inl hprim =>
      cases elem with
      | prim p => exact .pure
      | _ => cases hprim
    | inr hreg => exact Ty.Apt.passes (t := elem) hs hacyc h hreg hvars
  | .inter _ _, _, hreg, _ => by cases hreg.1
  | .var _, _, _, hvars => by cases hvars

/-- Apt arguments pass the check. -/
theorem Arg.AptAll.passes (hs : s.Regular .plain) (hacyc : s.Acyclic) (n : Nominal) :
    ∀ {as : List Arg}, Arg.AptAll s as → Arg.RegularAll s .plain as → Arg.varsAll as = [] →
      s.Passes fun s => Arg.checkAll s n as
  | [], _, _, _ => .pure
  | .type t :: as, h, hreg, hvars => by
    rw [Arg.AptAll, Arg.Apt] at h
    rw [Arg.RegularAll, Arg.Regular] at hreg
    rw [Arg.varsAll, Arg.vars, List.append_eq_nil_iff] at hvars
    have ht : s.Passes fun s => (Arg.type t).check s n := by
      simp only [Arg.check_type _ _ h.1.1]
      exact Ty.Apt.passes hs hacyc h.1.2 hreg.1 hvars.1
    exact ht.seq (Arg.AptAll.passes hs hacyc n h.2 hreg.2 hvars.2)
  | .wild _ _ :: as, _, hreg, _ => by
    rw [Arg.RegularAll, Arg.Regular] at hreg
    cases hreg.1.1
end

/-- **A closed plain type is accepted exactly if it is apt.** -/
theorem Setting.accepts_iff_apt (hs : s.Regular .plain) (hacyc : s.Acyclic) {t : Ty}
    (ht : t.Regular s .plain) (hvars : t.vars = []) : s.Accepts t ↔ t.Apt s := by
  constructor
  · rintro ⟨n, m', h⟩
    exact Ty.Apt.of_check hs (Memory.faithful_empty s) ht hvars h
  · intro h
    obtain ⟨depth, hpass⟩ := h.passes hs hacyc ht hvars
    obtain ⟨m', hcheck, _⟩ := hpass depth (Nat.le_refl _) {} (Memory.faithful_empty s)
    exact ⟨depth, m', hcheck⟩

end Check

end Generics
