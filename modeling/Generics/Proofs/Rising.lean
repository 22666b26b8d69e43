/-
# Bounds that rise to the top

Is a type below the top declaration? Applied declarations and arrays are, and so is a variable if its
bound is. What can go wrong is that the bound of a variable is a primitive, or that going from bound
to bound comes back to a variable that was passed: then the comparison gives up on it. A type rises
(`Setting.Rises`) if neither happens, and then no comparison with the top declaration answers no
(`Rises.granted`).

- The parameters of declarations rise, because none of them is bounded by itself (`rises_param`).
- The variables captured for wildcards rise if the arguments beside them do (`Captures.rises`): the
  bound of one may be another one, but then the parameter of one bounds the parameter of the other.

Nothing is asked of the bounds but that primitives stand in them as components of arrays only. They
may apply declarations to a wrong number of arguments.
-/

import Generics.Proofs.Catalogs

namespace Generics

/-! ### Questions that are never denied -/

namespace Query

variable {α : Type} {I : Memory → Prop} {first second : Query Bool}

/-- Asked with a memory of the given kind, the question does not answer no. -/
def Grants (I : Memory → Prop) (q : Query Bool) : Prop :=
  ∀ m r m', I m → q.Answers m r m' → r = true

namespace Grants

/-- The answer yes is granted. -/
theorem pure_true : Grants I (pure true) := fun _ _ _ _ h => (answers_pure.1 h).1

/-- A question that fails does not answer no. -/
theorem throw (f : Failure) : Grants I (throw f) := fun _ _ _ _ h => absurd h answers_throw

/-- A conjunction is granted if both halves are. -/
theorem both (hI : Preserves I first) (h₁ : Grants I first) (h₂ : Grants I second) :
    Grants I (Query.both first second) := by
  intro m r m' hm hr
  rcases answers_both.1 hr with ⟨m₁, ha, hb⟩ | ⟨ha, rfl⟩
  · exact h₂ m₁ r m' (hI.answers hm ha) hb
  · exact h₁ m false m' hm ha

/-- A disjunction is granted if its first half is. -/
theorem either_left (h : Grants I first) : Grants I (Query.either first second) := by
  intro m r m' hm hr
  rcases answers_either.1 hr with ⟨m₁, ha, hb⟩ | ⟨-, rfl⟩
  · cases h m false m₁ hm ha
  · rfl

/-- A disjunction is granted if its second half is. -/
theorem either_right (hI : Preserves I first) (h : Grants I second) :
    Grants I (Query.either first second) := by
  intro m r m' hm hr
  rcases answers_either.1 hr with ⟨m₁, ha, hb⟩ | ⟨-, rfl⟩
  · exact h m₁ r m' (hI.answers hm ha) hb
  · rfl

/-- Asking of all elements is granted if asking of each is. -/
theorem all {ask : α → Query Bool} (hI : ∀ a, Preserves I (ask a)) :
    ∀ {as : List α}, (∀ a ∈ as, Grants I (ask a)) → Grants I (Query.all ask as)
  | [], _ => pure_true
  | a :: _, h =>
    both (hI a) (h a List.mem_cons_self) (all hI fun b hb => h b (List.mem_cons_of_mem _ hb))

/-- A question about some element is granted if the one about a certain element is. -/
theorem any {ask : α → Query Bool} (hI : ∀ a, Preserves I (ask a)) {a : α} (h : Grants I (ask a)) :
    ∀ {as : List α}, a ∈ as → Grants I (Query.any ask as)
  | b :: _, ha => by
    rcases List.mem_cons.1 ha with rfl | ha
    · exact either_left h
    · exact either_right (hI b) (any hI h ha)

end Grants
end Query

/-! ### Memories that go on -/

/-- The second memory is faithful, and the variables that the first one has captured are the same
there. -/
structure Memory.Since (s : Setting) (m₀ m : Memory) : Prop where
  faithful : m.Faithful s
  last : m₀.lastCaptured ≤ m.lastCaptured
  captured : ∀ i ≤ m₀.lastCaptured, m.captured? i = m₀.captured? i

namespace Memory.Since

variable {s : Setting} {m₀ m₁ m₂ : Memory}

/-- A faithful memory comes after itself. -/
theorem refl (h : m₀.Faithful s) : m₀.Since s m₀ := ⟨h, Nat.le_refl _, fun _ _ => rfl⟩

/-- Coming after is transitive. -/
theorem trans (h₁ : m₀.Since s m₁) (h₂ : m₁.Since s m₂) : m₀.Since s m₂ :=
  ⟨h₂.faithful, Nat.le_trans h₁.last h₂.last, fun i hi =>
    (h₂.captured i (Nat.le_trans hi h₁.last)).trans (h₁.captured i hi)⟩

/-- The upper bounds of old variables stay. -/
theorem upper (h : m₀.Since s m₁) {i : Nat} (hi : i ≤ m₀.lastCaptured) :
    m₁.upper i = m₀.upper i := by rw [Memory.upper, Memory.upper, h.captured i hi]

/-- The lower bounds of old variables stay. -/
theorem lower (h : m₀.Since s m₁) {i : Nat} (hi : i ≤ m₀.lastCaptured) :
    m₁.lower i = m₀.lower i := by rw [Memory.lower, Memory.lower, h.captured i hi]

end Memory.Since

/-- A memory that keeps what was known comes after. -/
theorem Memory.Stays.since {s : Setting} {m m' : Memory} (h : m.Stays s m') : m.Since s m' :=
  ⟨h.faithful, Nat.le_of_eq h.keeps.last.symm, fun i _ => by
    rw [Memory.captured?, Memory.captured?, h.keeps.captured]⟩

namespace Setting

open Query

variable {s : Setting} {m m₀ m' : Memory}

/-- Variables are captured under new numbers. -/
theorem Captures.since {n : Nominal} {cs : List Captured} (h : s.Captures n m m' cs) :
    m.Since s m' :=
  ⟨h.faithful, by rw [h.last]; omega, fun i hi => by
    rw [h.captured?_eq, if_neg (by omega), Option.none_or]⟩

/-- **No question changes what was captured before.** -/
theorem keeps_since (s : Setting) (m₀ : Memory) : s.Keeps (m₀.Since s) where
  lineage decl m hm := by
    obtain ⟨v, hv⟩ := lineage_steady s decl
    obtain ⟨-, hf, hl⟩ := hv m hm.faithful
    exact hm.trans (Memory.Stays.since ⟨hf, hl.keeps⟩)
  leadsTo? decl ancestor _ m hm := by
    obtain ⟨v, hv⟩ := leadsTo?_steady s decl ancestor
    obtain ⟨-, hf, hl⟩ := hv m hm.faithful
    exact hm.trans (Memory.Stays.since ⟨hf, hl.keeps⟩)
  built m hm := ⟨hm.faithful, hm.last, hm.captured⟩
  capture n _ m hm := by
    cases h : (s.capture n).outcome m with
    | mk r m' =>
      cases r with
      | error f => exact hm.trans (capture_fails hm.faithful h).since
      | ok n' =>
        obtain ⟨-, ⟨cs, hcs⟩, -⟩ := capture_fills hm.faithful h
        exact hm.trans hcs.since

/-! ### Comparisons that are never denied -/

section Comparisons

variable {I : Memory → Prop} {depth : Nat} {trail : Trail} {a b : Ty}

/-- A comparison without any depth does not answer at all. -/
theorem grants_of_succ
    (h : ∀ n, depth = n + 1 → Grants I (s.belowWithin (n + 1) trail a b)) :
    Grants I (s.belowWithin depth trail a b) := by
  cases depth with
  | zero => exact .throw _
  | succ n => exact h n rfl

/-- A variable is below what its upper bound is below. -/
theorem grants_of_upper {v : Var} (hb : b.isInter = false) (htrail : (v.key, .upper) ∉ trail)
    (h : Grants I (s.upper v >>= fun t => s.belowWithin depth ((v.key, .upper) :: trail) t b)) :
    Grants I (s.belowWithin (depth + 1) trail (.var v) b) := by
  by_cases hne : Ty.var v = b
  · rw [hne, belowWithin_self]
    exact .pure_true
  · rw [belowWithin_var hb hne, List.contains_eq_mem, decide_eq_false htrail]
    split
    · exact .pure_true
    · exact h.either_left

/-- **A captured variable is granted what its upper bound is**, if that bound was not gone through. -/
theorem grants_of_captured (hI : ∀ m₁, I m₁ → m.Since s m₁) {i : Nat} (hi : i ≤ m.lastCaptured)
    (hb : b.isInter = false) (htrail : (.captured i, .upper) ∉ trail)
    (h : Grants I (s.belowWithin depth ((.captured i, .upper) :: trail) (m.upper i) b)) :
    Grants I (s.belowWithin (depth + 1) trail (.var (.captured i)) b) := by
  refine grants_of_upper hb htrail fun m₁ r m' hm₁ hr => ?_
  obtain ⟨u, m₂, hu, hr⟩ := answers_bind.1 hr
  obtain ⟨m₃, m₄, hget, hu⟩ := answers_bind.1 hu
  obtain ⟨rfl, rfl⟩ := answers_get.1 hget
  obtain ⟨rfl, rfl⟩ := answers_pure.1 hu
  rw [(hI _ hm₁).upper hi] at hr
  exact h m₂ r m' hm₁ hr

/-- An intersection is below what a member is below. -/
theorem grants_of_member (hI : s.Keeps I) {st : Site} {c : Ty} {ms : List Ty} (hc : c ∈ ms)
    (hb : b.isInter = false) (h : Grants I (s.belowWithin depth trail c b)) :
    Grants I (s.belowWithin (depth + 1) trail (.inter st ms) b) := by
  cases ms with
  | nil => cases hc
  | cons x xs =>
    rw [belowWithin_inter hb]
    exact (Grants.any (fun t => hI.belowWithin depth trail t b) h hc).either_left

/-- Every applied declaration is below the top declaration. -/
theorem nominal_granted (st site : Site) (d : String) (as : List Arg) :
    Grants I (s.belowWithin depth trail (.nominal st d as) (.nominal site objectName [])) := by
  refine grants_of_succ fun depth _ => ?_
  by_cases heq : Ty.nominal st d as = .nominal site objectName []
  · rw [heq, belowWithin_self]
    exact .pure_true
  rw [belowWithin_nominal heq]
  intro m₁ r m' _ hr
  obtain ⟨i, m₂, hi, hr⟩ := answers_bind.1 hr
  have htrue : i = true := by
    unfold inherits at hi
    rw [if_pos rfl] at hi
    split at hi
    · exact (answers_pure.1 hi).1
    · obtain ⟨l, m₃, -, hi⟩ := answers_bind.1 hi
      exact (answers_pure.1 hi).1
  rw [htrue] at hr
  exact (answers_pure.1 hr).1

end Comparisons

/-! ### Rising -/

/-- Going up from the type, from bound to bound of the variables that stand bare, meets no variable
twice and none of the given keys, and does not come to a primitive. -/
inductive Rises (s : Setting) (m : Memory) : List VarKey → Ty → Prop
  | null (ks : List VarKey) : Rises s m ks .null
  | nominal (ks : List VarKey) (site : Site) (decl : String) (args : List Arg) :
    Rises s m ks (.nominal site decl args)
  | array (ks : List VarKey) (elem : Ty) : Rises s m ks (.array elem)
  | inter {ks : List VarKey} {site : Site} {members : List Ty} :
    (∀ t ∈ members, Rises s m ks t) → Rises s m ks (.inter site members)
  | declared {ks : List VarKey} {v : TypeVar} :
    v.key ∉ ks → Rises s m (v.key :: ks) (s.catalog.upper v) → Rises s m ks (.var (.declared v))
  | captured {ks : List VarKey} {i : Nat} :
    i ≤ m.lastCaptured → .captured i ∉ ks → Rises s m (.captured i :: ks) (m.upper i) →
      Rises s m ks (.var (.captured i))

namespace Rises

variable {ks : List VarKey} {t u c : Ty}

/-- Only upper bounds of known variables are on a trail that goes up one step more. -/
theorem mem_trail_cons {trail : Trail} {key : VarKey}
    (h : ∀ k, (k, Side.upper) ∈ trail → k ∈ ks) :
    ∀ k, (k, Side.upper) ∈ (key, Side.upper) :: trail → k ∈ key :: ks := by
  intro k hk
  rcases List.mem_cons.1 hk with hk | hk
  · injection hk with hk
    exact hk ▸ List.mem_cons_self
  · exact List.mem_cons_of_mem _ (h k hk)

/-- **A type that rises is not denied to be below the top declaration.** -/
theorem granted (harrays : objectName ∈ s.options.arrayParents) (h : s.Rises m ks t) {depth : Nat}
    {trail : Trail} (htrail : ∀ key, (key, Side.upper) ∈ trail → key ∈ ks) (site : Site) :
    Grants (m.Since s) (s.belowWithin depth trail t (.nominal site objectName [])) := by
  induction h generalizing depth trail with
  | null =>
    refine grants_of_succ fun depth _ => ?_
    rw [belowWithin_of_null]
    exact .pure_true
  | nominal ks st d as => exact nominal_granted st site d as
  | array ks elem =>
    refine grants_of_succ fun depth _ => ?_
    rw [belowWithin_array_nominal, isArrayParent, List.isEmpty_nil, Bool.true_and,
      List.contains_iff_mem.2 harrays]
    exact .pure_true
  | @inter ks st ms _ ih =>
    refine grants_of_succ fun depth _ => ?_
    cases ms with
    | nil =>
      rw [belowWithin_top rfl]
      exact nominal_granted .common site objectName []
    | cons c ms =>
      exact grants_of_member (keeps_since s m) List.mem_cons_self rfl
        (ih c List.mem_cons_self htrail)
  | @declared ks v hkey _ ih =>
    refine grants_of_succ fun depth _ =>
      grants_of_upper rfl (fun hmem => hkey (htrail _ hmem)) fun m₁ r m' hm₁ hr => ?_
    obtain ⟨u, m₂, hu, hr⟩ := answers_bind.1 hr
    obtain ⟨rfl, rfl⟩ := answers_pure.1 hu
    exact ih (mem_trail_cons htrail) m₂ r m' hm₁ hr
  | @captured ks i hi hkey _ ih =>
    exact grants_of_succ fun depth _ => grants_of_captured (fun _ => id) hi rfl
      (fun hmem => hkey (htrail _ hmem)) (ih (mem_trail_cons htrail))

/-- Going on with a memory, a type still rises, also past variables captured meanwhile. -/
theorem since (h : s.Rises m ks t) (hm : m.Since s m') {ks' : List VarKey}
    (hks : ∀ key ∈ ks', key ∈ ks ∨ ∃ i, m.lastCaptured < i ∧ key = .captured i) :
    s.Rises m' ks' t := by
  have hcons : ∀ {ks ks' : List VarKey} {key : VarKey},
      (∀ k ∈ ks', k ∈ ks ∨ ∃ i, m.lastCaptured < i ∧ k = .captured i) →
        ∀ k ∈ key :: ks', k ∈ key :: ks ∨ ∃ i, m.lastCaptured < i ∧ k = .captured i := by
    intro ks ks' key h k hk
    rcases List.mem_cons.1 hk with rfl | hk
    · exact .inl List.mem_cons_self
    · exact (h k hk).imp_left (List.mem_cons_of_mem _)
  induction h generalizing ks' with
  | null => exact .null ks'
  | nominal => exact .nominal ks' _ _ _
  | array => exact .array ks' _
  | inter _ ih => exact .inter fun t ht => ih t ht hks
  | declared hkey _ ih =>
    refine .declared (fun hmem => ?_) (ih (hcons hks))
    rcases hks _ hmem with hmem | ⟨i, -, hi⟩
    · exact hkey hmem
    · cases hi
  | captured hle hkey _ ih =>
    refine .captured (Nat.le_trans hle hm.last) (fun hmem => ?_) ?_
    · rcases hks _ hmem with hmem | ⟨i, hlt, hi⟩
      · exact hkey hmem
      · injection hi with hi
        omega
    · rw [hm.upper hle]
      exact ih (hcons hks)

/-! What rises, by its form -/

/-- What a rising type consists of rises. -/
theorem conjunct (h : s.Rises m ks t) (hc : c ∈ t.conjuncts) : s.Rises m ks c := by
  cases h with
  | inter h => exact h c hc
  | null => rw [List.mem_singleton.1 hc]; exact .null ks
  | nominal => rw [List.mem_singleton.1 hc]; exact .nominal ks _ _ _
  | array => rw [List.mem_singleton.1 hc]; exact .array ks _
  | declared hkey h => rw [List.mem_singleton.1 hc]; exact .declared hkey h
  | captured hi hkey h => rw [List.mem_singleton.1 hc]; exact .captured hi hkey h

/-- A type rises if all that it consists of does. -/
theorem of_conjuncts (h : ∀ c ∈ t.conjuncts, s.Rises m ks c) : s.Rises m ks t := by
  cases t with
  | inter st ms => exact .inter h
  | _ => exact h _ (List.mem_singleton.2 rfl)

/-- The meeting of rising bounds rises. -/
theorem meetBounds {site : Site} (ht : s.Rises m ks t) (hu : s.Rises m ks u) :
    s.Rises m ks (Ty.meetBounds site t u) :=
  of_conjuncts fun _ hc => (Ty.mem_conjuncts_meetBounds hc).elim ht.conjunct hu.conjunct

mutual
/-- A type rises if its shape does. -/
theorem of_shape : ∀ {t : Ty}, s.Rises m ks t.shape → s.Rises m ks t
  | .prim _, h => h
  | .null, h => h
  | .nominal _ _ _, _ => .nominal ks _ _ _
  | .array _, _ => .array ks _
  | .var _, h => h
  | .inter _ ms, h => by
    rw [Ty.shape, Ty.rebuild] at h
    cases h with
    | inter h => exact .inter (of_shapes h)

/-- Members rise if their shapes do. -/
theorem of_shapes : ∀ {ts : List Ty}, (∀ c ∈ Ty.rebuildParts .var ts, s.Rises m ks c) →
    ∀ t ∈ ts, s.Rises m ks t
  | [], _, t, ht => absurd ht List.not_mem_nil
  | u :: us, h, t, ht => by
    rw [Ty.rebuildParts] at h
    rcases List.mem_cons.1 ht with ht | ht
    · rw [ht]
      exact of_shape (of_conjuncts fun c hc => h c (List.mem_append_left _ hc))
    · exact of_shapes (fun c hc => h c (List.mem_append_right _ hc)) t ht
end

mutual
/-- **A type rises if what takes the place of its bare variables does.** -/
theorem rebuild {f : Var → Ty} : ∀ {t : Ty}, t.sparing = true → (∀ i, .captured i ∉ t.vars) →
    (∀ q ∈ t.bareVars, s.Rises m ks (f (.declared q))) → s.Rises m ks (t.rebuild f)
  | .prim _, hs, _, _ => by simp [Ty.sparing] at hs
  | .null, _, _, _ => .null ks
  | .nominal _ _ _, _, _, _ => .nominal ks _ _ _
  | .array _, _, _, _ => .array ks _
  | .var (.declared q), _, _, hf => hf q (List.mem_singleton.2 rfl)
  | .var (.captured i), _, hd, _ => absurd (List.mem_singleton.2 rfl) (hd i)
  | .inter _ ms, hs, hd, hf => by
    rw [Ty.rebuild]
    exact .inter (rebuildParts hs hd hf)

/-- Rebuilt members rise if what is put in for the bare variables does. -/
theorem rebuildParts {f : Var → Ty} : ∀ {ts : List Ty}, Ty.allSparing ts = true →
    (∀ i, .captured i ∉ Ty.varsAll ts) →
      (∀ q ∈ Ty.bareVarsAll ts, s.Rises m ks (f (.declared q))) →
        ∀ c ∈ Ty.rebuildParts f ts, s.Rises m ks c
  | [], _, _, _, c, hc => absurd hc List.not_mem_nil
  | t :: ts, hs, hd, hf, c, hc => by
    rw [Ty.allSparing, Bool.and_eq_true] at hs
    simp only [Ty.varsAll, List.mem_append, not_or] at hd
    simp only [Ty.bareVarsAll, List.mem_append] at hf
    rw [Ty.rebuildParts] at hc
    rcases List.mem_append.1 hc with hc | hc
    · exact (rebuild hs.1 (fun i => (hd i).1) fun q hq => hf q (.inl hq)).conjunct hc
    · exact rebuildParts hs.2 (fun i => (hd i).2) (fun q hq => hf q (.inr hq)) c hc
end

/-- A type rises if its bare variables do. -/
theorem of_bareVars (hs : t.sparing = true) (hd : ∀ i, .captured i ∉ t.vars)
    (h : ∀ q ∈ t.bareVars, s.Rises m ks (.var (.declared q))) : s.Rises m ks t :=
  of_shape (rebuild hs hd h)

/-- A regular type rises if its variables do. -/
theorem of_regular (ht : t.Regular s .full) (h : ∀ v ∈ t.vars, s.Rises m ks (.var v)) :
    s.Rises m ks t := by
  refine of_conjuncts fun c hc => ?_
  obtain ⟨hflat, hreg⟩ := Ty.isInter_eq_false_of_mem_conjuncts ht hc
  cases c with
  | prim p => cases hreg.not_prim
  | null => exact .null ks
  | nominal st d as => exact .nominal ks st d as
  | array e => exact .array ks e
  | inter st ms => cases hflat
  | var v => exact h v (Ty.mem_vars_of_mem_conjuncts hc)

end Rises
end Setting

/-! ### Parameters rise -/

/-- The declarations were grown, whatever variables stand outside of them; their bounds mention
primitives as components of arrays only, and every array is below the top declaration. -/
structure Setting.Upright (s : Setting) : Prop where
  grown : Catalog.Grown { s.catalog with free := [] }
  bounds : ∀ d ∈ s.catalog.decls, ∀ p ∈ d.params, p.upper.sparing = true
  arrays : objectName ∈ s.options.arrayParents

/-- A grown catalog stays upright when variables are added outside of its declarations. -/
theorem Setting.Upright.of_grown {c : Catalog} (h : c.Grown) (free : List Ty) {options : Options}
    (hbounds : ∀ d ∈ c.decls, ∀ p ∈ d.params, p.upper.sparing = true)
    (harrays : objectName ∈ options.arrayParents) :
    Setting.Upright { catalog := { c with free }, options } := by
  refine ⟨?_, hbounds, harrays⟩
  have hfree : { c with free := [] } = c := by rw [← h.free_eq]
  show Catalog.Grown { c with free := [] }
  rwa [hfree]

namespace Setting

open Query

variable {s : Setting} {m m' : Memory} {ks : List VarKey}

namespace Upright

/-- Upright settings have orderly catalogs. -/
theorem orderly (h : s.Upright) : s.catalog.Orderly :=
  ⟨h.grown.orderly.names, h.grown.orderly.faults, h.grown.orderly.decls⟩

/-- In upright settings the top declaration is plain. -/
theorem plainObject (h : s.Upright) : s.PlainObject :=
  Catalog.Grown.plainObject (s := { s with catalog := { s.catalog with free := [] } }) h.grown

/-- The parameters that are known of a declaration are those it was declared with. -/
theorem of_lineage (h : s.Upright) {decl : String} {l : Lineage} (hl : s.lineageOf decl = some l) :
    ∃ d ∈ s.catalog.decls, l.params = d.vars := by
  obtain ⟨d, hd, -, -, hparams, -⟩ := Catalog.Grown.of_lineage
    (s := { s with catalog := { s.catalog with free := [] } }) h.grown hl
  exact ⟨d, hd, hparams⟩

/-- The bound of a parameter is written over the parameters, and sparing. -/
theorem upper (h : s.Upright) {d : Declaration} (hd : d ∈ s.catalog.decls) {v : TypeVar}
    (hv : v ∈ d.vars) :
    Expr.Written d.vars (s.catalog.upper v) ∧ (s.catalog.upper v).sparing = true := by
  have hfind := h.orderly.find?_of_mem hd
  obtain ⟨p, hp, hupper, -⟩ := Declaration.upper_eq hfind hv
  exact ⟨(h.orderly.decls d hd).written_upper hfind hv, hupper ▸ h.bounds d hd p hp⟩

end Upright

/-- Nothing that was written mentions a captured variable. -/
theorem not_captured_of_written {scope : List TypeVar} {t : Ty} (h : Expr.Written scope t) (i : Nat) :
    .captured i ∉ t.vars := by
  intro hmem
  obtain ⟨w, -, hw⟩ := (h.vars _ hmem).mem
  cases hw

/-- **Parameters of declarations rise**, past captured variables and past parameters that they
bound. -/
theorem rises_param (hs : s.Upright) {d : Declaration} (hd : d ∈ s.catalog.decls) {v : TypeVar}
    (hv : v ∈ d.vars)
    (hks : ∀ key ∈ ks, (∃ w ∈ d.vars, key = w.key ∧ Relation.TransGen d.alone.Bounds v w) ∨
      ∃ i, key = .captured i) : s.Rises m ks (.var (.declared v)) := by
  have horderly := hs.orderly.decls d hd
  have hencloses := horderly.encloses
  have hacc : Acc d.alone.Bounds v := hencloses.acc horderly.ranked hv
  induction hacc generalizing ks with
  | intro v _ ih =>
    obtain ⟨hwritten, hsparing⟩ := hs.upper hd hv
    refine .declared (fun hmem => ?_) (.of_bareVars hsparing (not_captured_of_written hwritten) ?_)
    · rcases hks _ hmem with ⟨w, hw, hkey, hbounds⟩ | ⟨i, hi⟩
      · exact hencloses.key_ne hw (horderly.ranked w hw) hbounds hkey
      · cases hi
    · intro q hq
      have hbound : d.alone.Bounds q v :=
        (Declaration.alone_bounds (hs.orderly.find?_of_mem hd) hv).2 hq
      refine ih q hbound (hencloses.bounds v hv q hbound) fun key hkey => ?_
      rcases List.mem_cons.1 hkey with rfl | hkey
      · exact .inl ⟨v, hv, rfl, .single hbound⟩
      · refine (hks key hkey).imp_left ?_
        rintro ⟨w, hw, heq, hbounds⟩
        exact ⟨w, hw, heq, .head hbound hbounds⟩

/-! ### Captured variables rise -/

/-- The type is regular, and its variables rise. -/
structure Stands (s : Setting) (m : Memory) (t : Ty) : Prop where
  regular : t.Regular s .full
  vars : ∀ v ∈ t.vars, s.Rises m [] (.var v)

namespace Stands

variable {t : Ty}

/-- What stands keeps standing. -/
theorem since (h : s.Stands m t) (hm : m.Since s m') : s.Stands m' t :=
  ⟨h.regular, fun v hv => (h.vars v hv).since hm fun _ hk => absurd hk List.not_mem_nil⟩

/-- Standing does not depend on identities. -/
theorem shape (h : s.Stands m t) : s.Stands m t.shape :=
  ⟨h.regular.shape, fun v hv => h.vars v (Ty.vars_shape t ▸ hv)⟩

/-- The type rises, also past variables captured meanwhile. -/
theorem rises (h : s.Stands m t) (hm : m.Since s m')
    (hks : ∀ key ∈ ks, ∃ i, m.lastCaptured < i ∧ key = .captured i) : s.Rises m' ks t :=
  (Rises.of_regular h.regular h.vars).since hm fun key hkey => .inr (hks key hkey)

end Stands

/-- **Variables captured for wildcards rise**, past those whose parameters are bounded by theirs. -/
theorem Captures.rises (hs : s.Upright) {d : Declaration} (hd : d ∈ s.catalog.decls) {n : Nominal}
    {cs : List Captured} (hcs : s.Captures n m m' cs) (hps : s.paramsOf n.decl = d.vars)
    (hlen : n.args.length = d.vars.length) (hargs : ∀ a ∈ n.args, ∀ t ∈ a.parts, s.Stands m t)
    {j : Nat} {slot : TypeVar × Ty × Ty} (hslot : (slots d.vars n.args)[j]? = some slot)
    (hks : ∀ key ∈ ks, ∃ i other, key = .captured (m.lastCaptured + 1 + i) ∧
      (slots d.vars n.args)[i]? = some other ∧ Relation.TransGen d.alone.Bounds slot.1 other.1) :
    s.Rises m' ks (.var (.captured (m.lastCaptured + 1 + j))) := by
  have horderly := hs.orderly.decls d hd
  have hencloses := horderly.encloses
  have hmem := mem_slots (List.mem_of_getElem? hslot)
  have hacc : Acc d.alone.Bounds slot.1 := hencloses.acc horderly.ranked hmem.1
  generalize hp : slot.1 = p at hacc
  induction hacc generalizing j slot ks with
  | intro p _ ih =>
    subst hp
    have hnew : ∀ key ∈ VarKey.captured (m.lastCaptured + 1 + j) :: ks,
        ∃ i, m.lastCaptured < i ∧ key = .captured i := by
      intro key hkey
      rcases List.mem_cons.1 hkey with rfl | hkey
      · exact ⟨_, by omega, rfl⟩
      · obtain ⟨i, -, rfl, -⟩ := hks key hkey
        exact ⟨_, by omega, rfl⟩
    have hcount := (List.getElem?_eq_some_iff.1 hslot).1
    rw [length_slots (Nat.le_of_eq hlen)] at hcount
    obtain ⟨-, site, b, hrep, hup⟩ := hcs.bounds (hps.symm ▸ hslot)
    refine .captured (by rw [hcs.last]; omega) (fun hin => ?_) (hup ▸ .meetBounds ?_ (.of_shape ?_))
    · obtain ⟨i, other, hi, hother, hbounds⟩ := hks _ hin
      obtain rfl : i = j := by
        injection hi with hi
        omega
      rw [hslot] at hother
      cases hother
      exact hencloses.key_ne hmem.1 (horderly.ranked _ hmem.1) hbounds rfl
    · exact (hargs _ hmem.2 _ List.mem_cons_self).rises hcs.since hnew
    · obtain ⟨hwritten, hsparing⟩ := hs.upper hd hmem.1
      rw [hrep.shape]
      refine .rebuild hsparing (not_captured_of_written hwritten) fun q hq => ?_
      have hbound : d.alone.Bounds q slot.1 :=
        (Declaration.alone_bounds (hs.orderly.find?_of_mem hd) hmem.1).2 hq
      have hlast := Declaration.last_of_means (hwritten.vars _ (Ty.mem_vars_of_bareVars hq))
      obtain ⟨w, t, hzip, himage, hw⟩ := capturedImage_cases d.vars n.args hlen m.lastCaptured
        (hencloses.bounds _ hmem.1 q hbound)
      obtain rfl := hw hlast
      rw [capturedImage] at himage
      rw [hps, himage]
      rcases mem_zip_captureArgs hzip with ht | ⟨i, u, lo, rfl, hi⟩
      · exact (hargs _ ht t List.mem_cons_self).shape.rises hcs.since hnew
      · rw [Ty.shape_var]
        refine ih w hbound hi (fun key hkey => ?_) (mem_slots (List.mem_of_getElem? hi)) rfl
        rcases List.mem_cons.1 hkey with rfl | hkey
        · exact ⟨j, slot, rfl, hslot, .single hbound⟩
        · obtain ⟨i', other, heq, hother, hbounds⟩ := hks key hkey
          exact ⟨i', other, heq, hother, .head hbound hbounds⟩

end Setting
end Generics
