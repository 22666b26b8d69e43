/-
# Comparisons that are deep enough

A comparison that may nest too little fails. In the plain fragment that is the only way to fail: where
a derivation says that a type without variables is below another one, the comparison answers yes as
soon as it may nest deep enough, whatever the memory knows (`Setting.DeepFor.of_below`). How deep a
comparison may nest is part of the setting but not of anything else it asks
(`Setting.below_withDepth`).
-/

import Generics.Proofs.Marks

namespace Generics

/-- Plain applied declarations have no wildcards as arguments. -/
theorem Ty.Regular.not_wild {st : Site} {d : String} {as : List Arg}
    {s : Setting} (h : (Ty.nominal st d as).Regular s .plain) : ∀ a ∈ as, a.isWild = false := by
  intro a ha
  rw [Ty.Regular, Arg.regularAll_iff] at h
  have hreg := h.2 a ha
  cases a with
  | type t => rfl
  | wild u l =>
    rw [Arg.Regular] at hreg
    cases hreg.1

/-- What looks like an applied declaration is one. -/
theorem Ty.of_shape_nominal {t : Ty} {st : Site} {d : String} {as : List Arg}
    (h : t.shape = .nominal st d as) :
    ∃ n : Nominal, t = n.toTy ∧ n.decl = d ∧ n.args.map Arg.shape = as := by
  cases t with
  | nominal st' d' as' =>
    rw [Ty.shape_nominal] at h
    injection h with _ hd has
    exact ⟨⟨st', d', as'⟩, rfl, hd, has⟩
  | _ => cases h

/-- What looks like an array is one. -/
theorem Ty.of_shape_array {t x : Ty} (h : t.shape = .array x) : ∃ e, t = .array e ∧ e.shape = x := by
  cases t with
  | array e =>
    rw [Ty.shape_array] at h
    injection h with h
    exact ⟨e, rfl, h⟩
  | _ => cases h

/-- What looks like a primitive is this primitive. -/
theorem Ty.of_shape_prim {t : Ty} {p : Primitive} (h : t.shape = .prim p) : t = .prim p := by
  cases t with
  | prim q => exact h
  | _ => cases h

/-- Whether a type is a primitive is a matter of its shape. -/
theorem Ty.isPrim_shape (t : Ty) : t.shape.isPrim = t.isPrim := by
  cases t <;> rfl

namespace Setting

open Query Inference

variable {s : Setting} {k : Fragment}

/-- The setting in which comparisons may nest up to the given depth. -/
def withDepth (s : Setting) (depth : Nat) : Setting := { s with depth }

/-- The way up depends on the catalog alone. -/
theorem leadsTo?_congr (s' s : Setting) (h : s'.catalog = s.catalog) : s'.leadsTo? = s.leadsTo? := by
  funext decl ancestor
  simp only [leadsTo?, seek?_congr s' s h]

/-- Inheritance depends on the catalog alone. -/
theorem inherits_congr (s' s : Setting) (h : s'.catalog = s.catalog) : s'.inherits = s.inherits := by
  funext decl ancestor
  simp only [inherits, lineage_congr s' s h, leadsTo?_congr s' s h]

/-- Parameters depend on the catalog alone. -/
theorem params_congr (s' s : Setting) (h : s'.catalog = s.catalog) : s'.params = s.params := by
  funext decl
  simp only [params, lineage_congr s' s h]

/-- Being raw depends on the catalog alone. -/
theorem isRaw_congr (s' s : Setting) (h : s'.catalog = s.catalog) : s'.isRaw = s.isRaw := by
  funext n
  simp only [isRaw, params_congr s' s h]

/-- Climbing depends on the catalog alone. -/
theorem climb_congr (s' s : Setting) (h : s'.catalog = s.catalog) (ancestor : String) (steps : Nat)
    (n : Nominal) : s'.climb ancestor steps n = s.climb ancestor steps n := by
  induction steps generalizing n with
  | zero =>
    rw [climb, climb]
  | succ steps ih =>
    rw [climb, climb]
    simp only [leadsTo?_congr s' s h, isRaw_congr s' s h, assignment, params_congr s' s h, ih]

/-- Capturing bounds depends on the catalog alone. -/
theorem captureBounds_congr (s' s : Setting) (h : s'.catalog = s.catalog) (σ : Subst) (last : Nat)
    (ps : List TypeVar) (as : List Arg) :
    s'.captureBounds σ last ps as = s.captureBounds σ last ps as := by
  induction as generalizing last ps with
  | nil => cases ps <;> rfl
  | cons a as ih =>
    cases ps with
    | nil => rfl
    | cons p ps =>
      cases a with
      | type t => exact ih last ps
      | wild u l =>
        rw [captureBounds, captureBounds]
        simp only [ih, h]

/-- Supertypes depend on the catalog alone. -/
theorem supertypeAs_congr (s' s : Setting) (h : s'.catalog = s.catalog) :
    s'.supertypeAs = s.supertypeAs := by
  funext n ancestor
  simp only [supertypeAs, seenAs, capture, params_congr s' s h, captureBounds_congr s' s h,
    lineage_congr s' s h, climb_congr s' s h, h]

/-- Upper bounds depend on the catalog alone. -/
theorem upper_congr (s' s : Setting) (h : s'.catalog = s.catalog) : s'.upper = s.upper := by
  funext v
  cases v with
  | declared v => rw [upper, upper, h]
  | captured id => rfl

/-- Lower bounds depend on nothing but the memory. -/
theorem lower_congr (s' s : Setting) : s'.lower = s.lower := by
  funext v
  cases v <;> rfl

/-- **A comparison looks at the catalog and at what arrays are below, and at nothing else.** -/
theorem belowWithin_congr (s' s : Setting) (h : s'.catalog = s.catalog)
    (harrays : s'.options.arrayParents = s.options.arrayParents) (n : Nat) (trail : Trail) (a b : Ty) :
    s'.belowWithin n trail a b = s.belowWithin n trail a b := by
  induction n generalizing trail a b with
  | zero => rfl
  | succ n ih =>
    have hsub : s'.belowWithin n = s.belowWithin n :=
      funext fun trail => funext fun a => funext fun b => ih trail a b
    rw [belowWithin.eq_def, belowWithin.eq_def s]
    simp only [hsub, nominalBelowBy, inherits_congr s' s h, isRaw_congr s' s h,
      supertypeAs_congr s' s h, upper_congr s' s h, lower_congr s' s, isArrayParent, harrays]

/-- **The depth of a setting is the depth of its comparisons.** -/
theorem below_withDepth (s : Setting) (depth : Nat) (a b : Ty) :
    (s.withDepth depth).below a b = s.belowWithin depth [] a b :=
  belowWithin_congr (s.withDepth depth) s rfl rfl depth [] a b

/-! ### The plain fragment -/

/-- From a depth on, the comparison answers yes, and keeps a faithful memory faithful. -/
def Deep (s : Setting) (depth : Nat) (a b : Ty) : Prop :=
  ∀ n, depth ≤ n → ∀ trail m, m.Faithful s →
    ∃ m', (s.belowWithin n trail a b).Answers m true m' ∧ m'.Faithful s

/-- A comparison that is deep from some depth on is so from any greater one on. -/
theorem Deep.mono {depth depth' : Nat} {a b : Ty} (h : s.Deep depth a b) (hle : depth ≤ depth') :
    s.Deep depth' a b := fun n hn => h n (Nat.le_trans hle hn)

/-- From a depth on, the comparison answers yes for all plain types without variables that have these
shapes. -/
def DeepFor (s : Setting) (depth : Nat) (x y : Ty) : Prop :=
  ∀ a b : Ty, a.shape = x → b.shape = y → a.Regular s .plain → b.Regular s .plain → a.vars = [] →
    b.vars = [] → s.Deep depth a b

/-- Finitely many comparisons have a common depth. -/
theorem DeepFor.all {pairs : List (Ty × Ty)} (h : ∀ x ∈ pairs, ∃ depth, s.DeepFor depth x.1 x.2) :
    ∃ depth, ∀ x ∈ pairs, s.DeepFor depth x.1 x.2 := by
  induction pairs with
  | nil => exact ⟨0, by simp⟩
  | cons x pairs ih =>
    obtain ⟨d₁, h₁⟩ := h x List.mem_cons_self
    obtain ⟨d₂, h₂⟩ := ih fun y hy => h y (List.mem_cons_of_mem _ hy)
    refine ⟨max d₁ d₂, fun y hy a b ha hb har hbr hav hbv => ?_⟩
    rcases List.mem_cons.1 hy with rfl | hy
    · exact (h₁ a b ha hb har hbr hav hbv).mono (Nat.le_max_left _ _)
    · exact (h₂ y hy a b ha hb har hbr hav hbv).mono (Nat.le_max_right _ _)

/-- Two questions that are answered yes one after the other are both answered yes. -/
theorem answers_both_true {first second : Query Bool} {m m₁ m₂ : Memory}
    (h₁ : first.Answers m true m₁) (h₂ : second.Answers m₁ true m₂) :
    (both first second).Answers m true m₂ := answers_both.2 (.inl ⟨m₁, h₁, h₂⟩)

/-- From a depth on at which both directions are affirmed, types are equivalent. -/
theorem Deep.equivalentBy {depth n : Nat} {a b : Ty} (h₁ : s.Deep depth a b)
    (h₂ : s.Deep depth b a) (hn : depth ≤ n) {m : Memory} (hm : m.Faithful s) :
    ∃ m', (equivalentBy (s.belowWithin n []) a b).Answers m true m' ∧ m'.Faithful s := by
  unfold Setting.equivalentBy
  split
  · exact ⟨m, rfl, hm⟩
  · obtain ⟨m₁, ha, hm₁⟩ := h₁ n hn [] m hm
    obtain ⟨m₂, hb, hm₂⟩ := h₂ n hn [] m₁ hm₁
    exact ⟨m₂, answers_both_true ha hb, hm₂⟩

/-- From a depth on at which all that is demanded is affirmed, arguments contain each other. -/
theorem Deep.containsAllBy {depth n : Nat} {found asked : List Arg}
    (h : ∀ x ∈ Arg.demandsAll found asked, s.Deep depth x.1 x.2) (hn : depth ≤ n)
    (hlen : found.length = asked.length) (hfound : ∀ c ∈ found, c.isWild = false) {m : Memory}
    (hm : m.Faithful s) :
    ∃ m', (containsAllBy (s.belowWithin n []) asked found).Answers m true m' ∧ m'.Faithful s := by
  induction found generalizing asked m with
  | nil =>
    cases asked with
    | nil => exact ⟨m, rfl, hm⟩
    | cons b bs => cases hlen
  | cons c cs ih =>
    cases asked with
    | nil => cases hlen
    | cons b bs =>
      have hhead : ∀ x ∈ c.demands b, s.Deep depth x.1 x.2 := fun x hx =>
        h x (by rw [Arg.demandsAll, List.zip_cons_cons, List.flatMap_cons]
                exact List.mem_append_left _ hx)
      have htail : ∀ x ∈ Arg.demandsAll cs bs, s.Deep depth x.1 x.2 := fun x hx =>
        h x (by rw [Arg.demandsAll, List.zip_cons_cons, List.flatMap_cons]
                exact List.mem_append_right _ hx)
      have hfirst : ∃ m', (containsBy (s.belowWithin n []) b c).Answers m true m' ∧
          m'.Faithful s := by
        cases c with
        | wild u l => cases hfound _ List.mem_cons_self
        | type t =>
          cases b with
          | type t' =>
            exact Deep.equivalentBy (hhead (t, t') (by simp [Arg.demands]))
              (hhead (t', t) (by simp [Arg.demands])) hn hm
          | wild u l =>
            obtain ⟨m₁, hl, hm₁⟩ := hhead (l, t) (by simp [Arg.demands]) n hn [] m hm
            obtain ⟨m₂, hu, hm₂⟩ := hhead (t, u) (by simp [Arg.demands]) n hn [] m₁ hm₁
            exact ⟨m₂, answers_both_true hl hu, hm₂⟩
      obtain ⟨m₁, hc, hm₁⟩ := hfirst
      obtain ⟨m₂, hcs, hm₂⟩ := ih htail (Nat.succ.inj hlen)
        (fun c hc => hfound c (List.mem_cons_of_mem _ hc)) hm₁
      exact ⟨m₂, answers_both_true hc hcs, hm₂⟩

/-- The first two questions of a comparison answer yes; it remains what is asked after them. -/
theorem Deep.step {depth : Nat} {a b : Ty}
    (h : a ≠ .null → a ≠ b → ∀ n, depth ≤ n → ∀ trail m, m.Faithful s →
      ∃ m', (s.belowWithin (n + 1) trail a b).Answers m true m' ∧ m'.Faithful s) :
    s.Deep (depth + 1) a b := by
  intro n hn trail m hm
  obtain ⟨n, rfl⟩ : ∃ n', n = n' + 1 := ⟨n - 1, by omega⟩
  by_cases hnull : a = .null
  · rw [belowWithin.eq_def]
    dsimp only
    rw [if_pos hnull]
    exact ⟨m, rfl, hm⟩
  by_cases hsame : a = b
  · rw [belowWithin.eq_def]
    dsimp only
    rw [if_neg hnull, if_pos hsame]
    exact ⟨m, rfl, hm⟩
  exact h hnull hsame n (by omega) trail m hm

/-- What stands in the arguments of a closed type is closed. -/
theorem vars_of_parts {st : Site} {d : String} {as : List Arg} (h : (Ty.nominal st d as).vars = [])
    {a : Arg} (ha : a ∈ as) {t : Ty} (ht : t ∈ a.parts) : t.vars = [] := by
  refine List.eq_nil_iff_forall_not_mem.2 fun v hv => ?_
  have hmem : v ∈ (Ty.nominal st d as).vars := by
    rw [Ty.vars, Arg.mem_varsAll]
    exact ⟨a, ha, Arg.mem_vars_of_parts ht hv⟩
  rw [h] at hmem
  cases hmem

/-- Between applied declarations, what the derivation says about the arguments decides how deep to
go. -/
theorem Deep.nominal (hs : s.Regular .plain) (hacyc : s.Acyclic) {depth : Nat} {a b : Nominal}
    {Γ : Scope} (ha : a.toTy.Regular s .plain) (hb : b.toTy.Regular s .plain)
    (hav : a.toTy.vars = []) (hbv : b.toTy.vars = [])
    (hbelow : Below s Γ a.toTy.shape b.toTy.shape)
    (h : ∀ cs, s.SeenAs b.decl a.decl (a.args.map Arg.shape) cs →
      ∀ x ∈ Arg.demandsAll cs (b.args.map Arg.shape), s.DeepFor depth x.1 x.2) :
    s.Deep (depth + 1) a.toTy b.toTy := by
  refine Deep.step fun hnull hsame n hn trail m hm => ?_
  rw [belowWithin.eq_def]
  dsimp only
  rw [if_neg hnull, if_neg hsame]
  change ∃ m', (s.nominalBelowBy (s.belowWithin n []) a b).Answers m true m' ∧ _
  rw [nominalBelowBy_eq]
  obtain ⟨l, hl⟩ := takes_of_regular ha
  obtain ⟨r, m₁, hr⟩ := meeting_total hs hacyc hm hl hb
  obtain ⟨hnever, halways, hfound⟩ := meeting_answers hs hm hl hb hr
  cases r with
  | never => exact absurd (Below.canMeet hbelow) (hnever rfl).2
  | always => exact ⟨m₁, answers_bind.2 ⟨_, _, hr, rfl⟩, (halways rfl).1.faithful⟩
  | found cs =>
    have hmeets := hfound cs rfl
    have hwild : ∀ x ∈ a.args.map Arg.shape, x.isWild = false := by
      intro x hx
      obtain ⟨y, hy, rfl⟩ := List.mem_map.1 hx
      exact (isWild_rebuild _ y).trans (Ty.Regular.not_wild ha y hy)
    have hseen := hmeets.seen
    rw [captureArgs_of_no_wild hwild] at hseen
    have hcs : ∀ c ∈ cs, ∀ t ∈ c.parts, t.Regular s .plain ∧ t.vars = [] := by
      refine fun c hc t ht => ⟨(hmeets.regular c hc).parts ht,
        List.eq_nil_iff_forall_not_mem.2 fun v hv => ?_⟩
      rcases hmeets.vars hs hl c hc v (Arg.mem_vars_of_parts ht hv) with ⟨z, hz, hvz⟩ | ⟨i, -, hi⟩
      · have hmem : v ∈ a.toTy.vars := Arg.mem_varsAll.2 ⟨z, hz, hvz⟩
        rw [hav] at hmem
        cases hmem
      · rw [hmeets.scope, Scope.capture_of_no_wild hwild] at hi
        omega
    have hbs : ∀ c ∈ b.args, ∀ t ∈ c.parts, t.Regular s .plain ∧ t.vars = [] := by
      obtain ⟨_, hlb⟩ := takes_of_regular hb
      exact fun c hc t ht => ⟨(hlb.regular c hc).parts ht, vars_of_parts hbv hc ht⟩
    have hdeep : ∀ x ∈ Arg.demandsAll cs b.args, s.Deep depth x.1 x.2 := by
      intro x hx
      have hshape : (x.1.shape, x.2.shape) ∈
          Arg.demandsAll (cs.map Arg.shape) (b.args.map Arg.shape) := by
        refine (Arg.demandsAll_map .var cs b.args).symm ▸ ?_
        exact List.mem_map.2 ⟨x, hx, rfl⟩
      obtain ⟨c, hc, d, hd, ⟨h₁, h₂⟩ | ⟨h₁, h₂⟩⟩ := Arg.mem_demandsAll hx
      · exact h _ hseen _ hshape _ _ rfl rfl (hcs c hc _ h₁).1 (hbs d hd _ h₂).1
          (hcs c hc _ h₁).2 (hbs d hd _ h₂).2
      · exact h _ hseen _ hshape _ _ rfl rfl (hbs d hd _ h₁).1 (hcs c hc _ h₂).1
          (hbs d hd _ h₁).2 (hcs c hc _ h₂).2
    obtain ⟨m₂, hall, hm₂⟩ := Deep.containsAllBy hdeep hn hmeets.length
      (hmeets.isWild hs hl.shape) hmeets.faithful
    exact ⟨m₂, answers_bind.2 ⟨_, _, hr, hall⟩, hm₂⟩

/-- **In the plain fragment a comparison fails only by nesting too little.** Where a derivation says
that one shape is below another one, the comparison answers yes from some depth on, for all types of
these shapes that have no variables. -/
theorem DeepFor.of_below (hs : s.Regular .plain) (hacyc : s.Acyclic) {Γ : Scope} {x y : Ty}
    (h : Below s Γ x y) : ∃ depth, s.DeepFor depth x y := by
  induction h with
  | null Γ b =>
    refine ⟨0 + 1, fun a b ha _ _ _ _ _ => Deep.step fun hnull _ => absurd ?_ hnull⟩
    cases a with
    | null => rfl
    | _ => cases ha
  | raw hi =>
    refine ⟨0 + 1, fun a b ha hb har hbr hav hbv => ?_⟩
    obtain ⟨na, rfl, rfl, hna⟩ := Ty.of_shape_nominal ha
    obtain ⟨nb, rfl, rfl, hnb⟩ := Ty.of_shape_nominal hb
    refine Deep.nominal (Γ := ⟨fun _ => .null, fun _ => .null, 0⟩) hs hacyc har hbr hav hbv
      (ha ▸ hb ▸ .raw hi) fun cs _ x hx => ?_
    rw [hnb, Arg.demandsAll, List.zip_nil_right] at hx
    cases hx
  | @args Γ d e as bs cs hi hbs hraw hseen hlen hbelow ih =>
    obtain ⟨depth, hdepth⟩ := DeepFor.all ih
    refine ⟨depth + 1, fun a b ha hb har hbr hav hbv => ?_⟩
    obtain ⟨na, rfl, rfl, rfl⟩ := Ty.of_shape_nominal ha
    obtain ⟨nb, rfl, rfl, rfl⟩ := Ty.of_shape_nominal hb
    have hargs : Below s Γ na.toTy.shape nb.toTy.shape := by
      rw [ha, hb]
      exact .args hi hbs hraw hseen hlen hbelow
    refine Deep.nominal hs hacyc har hbr hav hbv hargs fun cs' hcs' => ?_
    have hwild : ∀ x ∈ na.args.map Arg.shape, x.isWild = false := by
      intro x hx
      obtain ⟨y, hy, rfl⟩ := List.mem_map.1 hx
      exact (isWild_rebuild _ y).trans (Ty.Regular.not_wild har y hy)
    rw [captureArgs_of_no_wild hwild] at hseen
    rw [hcs'.unique hseen]
    exact hdepth
  | @members Γ a bs _ _ =>
    refine ⟨0, fun a b _ hb _ hbr _ _ => ?_⟩
    cases b with
    | inter st ms =>
      rw [Ty.Regular] at hbr
      cases hbr.1
    | _ => cases hb
  | @top Γ b _ _ _ =>
    refine ⟨0, fun a b ha _ har _ _ _ => ?_⟩
    cases a with
    | inter st ms =>
      rw [Ty.Regular] at har
      cases har.1
    | _ => cases ha
  | @member Γ a b as _ _ _ _ =>
    refine ⟨0, fun a b ha _ har _ _ _ => ?_⟩
    cases a with
    | inter st ms =>
      rw [Ty.Regular] at har
      cases har.1
    | _ => cases ha
  | @upper Γ i b _ _ _ =>
    refine ⟨0, fun a b ha _ _ _ hav _ => ?_⟩
    rw [← Ty.vars_shape, ha] at hav
    cases hav
  | @lower Γ a i _ _ _ =>
    refine ⟨0, fun a b _ hb _ _ _ hbv => ?_⟩
    rw [← Ty.vars_shape, hb] at hbv
    cases hbv
  | refl Γ v =>
    refine ⟨0, fun a b ha _ _ _ hav _ => ?_⟩
    rw [← Ty.vars_shape, ha] at hav
    cases hav
  | @component Γ x y hx hy _ ih =>
    obtain ⟨depth, hdepth⟩ := ih
    refine ⟨depth + 1, fun a b ha hb har hbr hav hbv => ?_⟩
    obtain ⟨ea, rfl, rfl⟩ := Ty.of_shape_array ha
    obtain ⟨eb, rfl, rfl⟩ := Ty.of_shape_array hb
    rw [Ty.isPrim_shape] at hx hy
    rw [Ty.Regular, hx] at har
    rw [Ty.Regular, hy] at hbr
    have hdeep := hdepth ea eb rfl rfl (har.resolve_left Bool.false_ne_true)
      (hbr.resolve_left Bool.false_ne_true) hav hbv
    refine Deep.step fun hnull hsame n hn trail m hm => ?_
    rw [belowWithin.eq_def]
    dsimp only
    rw [if_neg hnull, if_neg hsame, arrayBelowBy, hx, hy]
    exact hdeep n hn [] m hm
  | components Γ p =>
    refine ⟨0 + 1, fun a b ha hb _ _ _ _ => Deep.step fun _ hsame => absurd ?_ hsame⟩
    obtain ⟨ea, rfl, hea⟩ := Ty.of_shape_array ha
    obtain ⟨eb, rfl, heb⟩ := Ty.of_shape_array hb
    rw [Ty.of_shape_prim hea, Ty.of_shape_prim heb]
  | @arrayParent Γ x e he =>
    refine ⟨0 + 1, fun a b ha hb _ _ _ _ => Deep.step fun hnull hsame n hn trail m hm => ?_⟩
    obtain ⟨ea, rfl, _⟩ := Ty.of_shape_array ha
    obtain ⟨nb, rfl, rfl, hnb⟩ := Ty.of_shape_nominal hb
    rw [belowWithin.eq_def]
    dsimp only
    rw [if_neg hnull, if_neg hsame]
    refine ⟨m, ?_, hm⟩
    rw [List.map_eq_nil_iff] at hnb
    change (pure (s.isArrayParent nb.decl nb.args) : Query Bool).Answers m true m
    rw [hnb, he]
    rfl
  | prim Γ p =>
    refine ⟨0 + 1, fun a b ha hb _ _ _ _ => Deep.step fun _ hsame => absurd ?_ hsame⟩
    rw [Ty.of_shape_prim ha, Ty.of_shape_prim hb]

end Setting
end Generics
