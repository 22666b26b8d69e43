/-
# Realizations of a scope

A `Realization` of a scope puts types in the place of variables: in the place of a captured
variable a variable of another scope with the bounds it should have, and in the place of a
declared variable the type it is given. The lower bound is the former one with types put in. The
upper bound may be better, as top types are left out of it: what the former one is below, it is
below.

A pair of types is `Good` in a scope if in every realization the first is below the second.
Capturing extends a realization (`Realization.capture`), so for each rule of subtyping there is
one for good pairs. It follows that what is derived in one scope is good there
(`good_of_below`), and that scopes which agree on some variables agree on types over them
(`Below.agree`).
-/

import Generics.Proofs.Tops

namespace Generics

/-- Types put in the place of the variables of a scope, in another scope. -/
structure Realization (s : Setting) (k : Fragment) (Γ : Scope) (U : TypeVar → Prop)
    (σ : Var → Ty) where
  /-- The other scope, -/
  scope : Scope
  /-- and the variables of it on which it is in order. -/
  among : Nat → Prop
  /-- The variables that something is put in the place of, -/
  has : Var → Prop
  /-- and what that is. -/
  put : Var → Ty
  sound : scope.Sound s k among
  siteless : Siteless put
  proper : ∀ v, (put v).isInter = false ∧ (put v).isPrim = false
  regular : ∀ v, has v → (put v).Regular s k ∧ (put v).Over among
  given : ∀ v, has (.declared v) → U v ∧ put (.declared v) = σ (.declared v)
  le_last : ∀ i, has (.captured i) → i ≤ Γ.last
  bound : ∀ i, has (.captured i) → ∃ j, put (.captured i) = .var (.captured j) ∧
    scope.lower j = (Γ.lower i).rebuild put ∧
      ∀ Δ D, scope.Le Δ → Δ.Sound s k D → (∀ j, among j → D j) → ∀ t,
        Below s Δ ((Γ.upper i).rebuild put) t → Below s Δ (scope.upper j) t
  closed : ∀ i, has (.captured i) →
    (∀ v ∈ (Γ.upper i).vars, has v) ∧ ∀ v ∈ (Γ.lower i).vars, has v

/-- A rebuilt type is an intersection only if the type is one, as long as no intersection is put in. -/
theorem Ty.isInter_rebuild {f : Var → Ty} (hf : ∀ v, (f v).isInter = false) (t : Ty) :
    (t.rebuild f).isInter = t.isInter := by
  cases t with
  | var v => exact hf v
  | _ => rfl

/-- A rebuilt type is primitive only if the type is, as long as no primitive type is put in. -/
theorem Ty.isPrim_rebuild {f : Var → Ty} (hf : ∀ v, (f v).isPrim = false) (t : Ty) :
    (t.rebuild f).isPrim = t.isPrim := by
  cases t with
  | var v => exact hf v
  | _ => rfl

/-- The members of an intersection are rebuilt one by one. -/
theorem Ty.rebuild_inter {f : Var → Ty} (hf : ∀ v, (f v).isInter = false) {site : Site}
    {ms : List Ty} (hms : ∀ m ∈ ms, m.isInter = false) :
    (Ty.inter site ms).rebuild f = .inter .common (ms.map (Ty.rebuild f)) := by
  rw [Ty.rebuild, Ty.rebuildParts_eq_map]
  intro t ht
  rw [Ty.isInter_rebuild hf]
  exact hms t ht

/-- The arguments of a declaration are rebuilt one by one. -/
theorem Ty.rebuild_nominal (f : Var → Ty) (site : Site) (d : String) (as : List Arg) :
    (Ty.nominal site d as).rebuild f = .nominal .common d (as.map (Arg.rebuild f)) := by
  rw [Ty.rebuild, Arg.rebuildAll_eq_map]

/-- A top type stays one. -/
theorem Ty.isTop_rebuild {t : Ty} (f : Var → Ty) (h : t.isTop = true) :
    (t.rebuild f).isTop = true := by
  cases t with
  | nominal st d as =>
    cases as with
    | nil => exact h
    | cons _ _ => cases h
  | inter st ms =>
    cases ms with
    | nil => rfl
    | cons _ _ => cases h
  | _ => cases h

namespace Setting

/-- The bounds of the captured variables of rebuilt arguments are rebuilt bounds. -/
theorem slots_map (f : Var → Ty) (ps : List TypeVar) (as : List Arg) :
    slots ps (as.map (Arg.rebuild f)) =
      (slots ps as).map fun slot => (slot.1, slot.2.1.rebuild f, slot.2.2.rebuild f) := by
  fun_induction slots ps as with
  | case1 p ps u l as ih => simp [Arg.rebuild, slots, ih]
  | case2 p ps t as ih => simpa [Arg.rebuild, slots] using ih
  | case3 ps as h₁ h₂ =>
    cases ps with
    | nil => simp [slots]
    | cons p ps =>
      cases as with
      | nil => simp [slots]
      | cons a as =>
        cases a with
        | type t => exact (h₂ p ps t as rfl rfl).elim
        | wild u l => exact (h₁ p ps u l as rfl rfl).elim

/-- Rebuilding arguments keeps the number of wildcards. -/
theorem countP_map (f : Var → Ty) (as : List Arg) :
    (as.map (Arg.rebuild f)).countP Arg.isWild = as.countP Arg.isWild := by
  rw [List.countP_map]
  congr 1
  funext a
  exact isWild_rebuild f a

end Setting

/-- **Putting types in the place of variables makes a bound no worse**: a member that becomes a
top type is left out. -/
theorem Below.meetBounds_rebuild {s : Setting} {Δ : Scope} {C : Nat → Prop} (hs : s.Regular .full)
    (hΔ : Δ.Sound s .full C) {f : Var → Ty} (hf : Siteless f) {p q t : Ty}
    (hp : (p.rebuild f).Regular s .full) (hq : (q.rebuild f).Regular s .full)
    (hpo : (p.rebuild f).Over C) (hqo : (q.rebuild f).Over C)
    (h : Below s Δ ((Ty.meetBounds .common p q).rebuild f) t) :
    Below s Δ (Ty.meetBounds .common (p.rebuild f) (q.rebuild f)) t := by
  have hps := Ty.shape_rebuild hf p
  have hqs := Ty.shape_rebuild hf q
  rw [Ty.meetBounds] at h
  split at h
  · next hptop =>
    rw [Ty.meetBounds, if_pos (Ty.isTop_rebuild f hptop)]
    exact h
  · split at h
    · next hqtop =>
      rw [Ty.meetBounds]
      split
      · next hptop => exact hqs ▸ Below.of_isTop hs hΔ hq hqo hptop hps h
      · rw [if_pos (Ty.isTop_rebuild f hqtop)]
        exact h
    · rw [Ty.rebuild_meet, Ty.rebuildParts, Ty.rebuildParts, Ty.rebuildParts, List.append_nil] at h
      exact Below.of_meetBounds hs hΔ hp hq hpo hqo hps hqs h

namespace Realization

variable {s : Setting} {k : Fragment} {Γ : Scope} {U : TypeVar → Prop} {σ : Var → Ty}
  (R : Realization s k Γ U σ) {decl : String} {l : Lineage} {as : List Arg}

/-- Something is put in the place of all variables of the type. -/
def Covers (t : Ty) : Prop := ∀ v ∈ t.vars, R.has v

/-- Realizing a type makes no intersection of it. -/
theorem isInter_put (t : Ty) : (t.rebuild R.put).isInter = t.isInter :=
  Ty.isInter_rebuild (fun v => (R.proper v).1) t

/-- Realizing a type makes no primitive type of it. -/
theorem isPrim_put (t : Ty) : (t.rebuild R.put).isPrim = t.isPrim :=
  Ty.isPrim_rebuild (fun v => (R.proper v).2) t

/-- Realizing a regular type gives a regular type. -/
theorem regular_put {t : Ty} (ht : t.Regular s k) (hR : R.Covers t) :
    (t.rebuild R.put).Regular s k := ht.rebuild fun v hv => (R.regular v (hR v hv)).1

/-- A realized type mentions captured variables of the realization only. -/
theorem over_put {t : Ty} (hR : R.Covers t) : (t.rebuild R.put).Over R.among := by
  intro v hv
  obtain ⟨w, hw, hv⟩ := Ty.mem_vars_rebuild.1 hv
  exact (R.regular w (hR w hw)).2 v hv

/-- What is put in the place of variables after capturing: the new variables of the one scope for
those of the other. -/
def putAfter : Var → Ty
  | .captured i =>
    if Γ.last < i then .var (.captured (R.scope.last + (i - Γ.last))) else R.put (.captured i)
  | .declared v => R.put (.declared v)

/-- Capturing changes nothing that was put in before. -/
theorem putAfter_of_has {v : Var} (h : R.has v) : R.putAfter v = R.put v := by
  cases v with
  | declared v => rfl
  | captured i =>
    have := R.le_last i h
    rw [putAfter, if_neg (by omega)]

/-- A type that was covered before is realized as before. -/
theorem rebuild_putAfter {t : Ty} (h : R.Covers t) : t.rebuild R.putAfter = t.rebuild R.put :=
  Ty.rebuild_congr fun v hv => R.putAfter_of_has (h v hv)

/-- The same for arguments. -/
theorem rebuild_arg_putAfter {a : Arg} (h : ∀ v ∈ a.vars, R.has v) :
    a.rebuild R.putAfter = a.rebuild R.put :=
  Arg.rebuild_congr fun v hv => R.putAfter_of_has (h v hv)

/-- What is put in after capturing has no sites. -/
theorem siteless_putAfter : Siteless R.putAfter := by
  intro v
  cases v with
  | declared v => exact R.siteless _
  | captured i =>
    rw [putAfter]
    split
    · rfl
    · exact R.siteless _

/-- **Capturing commutes with putting in.** -/
theorem captureArgs_put (n : Nat) (h : ∀ a ∈ as, ∀ v ∈ a.vars, R.has v) :
    (Setting.captureArgs (Γ.last + n) as).map (Arg.rebuild R.putAfter) =
      Setting.captureArgs (R.scope.last + n) (as.map (Arg.rebuild R.put)) := by
  induction as generalizing n with
  | nil => rfl
  | cons a as ih =>
    have htail : ∀ b ∈ as, ∀ v ∈ b.vars, R.has v := fun b hb => h b (List.mem_cons_of_mem _ hb)
    cases a with
    | type t =>
      rw [Setting.captureArgs, List.map_cons, ih n htail,
        R.rebuild_arg_putAfter (h _ List.mem_cons_self)]
      rfl
    | wild u l =>
      rw [Setting.captureArgs, List.map_cons, Nat.add_assoc, ih (n + 1) htail, Arg.rebuild,
        Ty.rebuild, putAfter, if_pos (by omega), show Γ.last + (n + 1) - Γ.last = n + 1 by omega]
      rfl

/-- The scope after capturing with types put in. -/
def scopeAfter (decl : String) (as : List Arg) : Scope :=
  R.scope.capture s decl (as.map (Arg.rebuild R.put))

/-- Something is put in the place of the new variables, too. -/
def hasAfter (decl : String) (as : List Arg) (v : Var) : Prop :=
  R.has v ∨ Scope.New Γ (Γ.capture s decl as) v

variable {R}

/-- Realized arguments suit the declaration, as the arguments do. -/
theorem suits_put (h : s.Takes k decl l as) (hR : ∀ a ∈ as, ∀ v ∈ a.vars, R.has v) :
    s.Suits k R.among decl l (as.map (Arg.rebuild R.put)) where
  lineage := h.lineage
  count := by simpa using h.count
  regular a ha := by
    obtain ⟨b, hb, rfl⟩ := List.mem_map.1 ha
    exact (h.regular b hb).rebuild fun v hv => (R.regular v (hR b hb v hv)).1
  argsOver a ha v hv := by
    obtain ⟨b, hb, rfl⟩ := List.mem_map.1 ha
    rw [Arg.vars_rebuild, List.mem_flatMap] at hv
    obtain ⟨w, hw, hv⟩ := hv
    exact (R.regular w (hR b hb w hw)).2 v hv

/-- As many variables are captured on both sides. -/
theorem last_scopeAfter : (R.scopeAfter decl as).last = R.scope.last + as.countP Arg.isWild := by
  rw [scopeAfter, Scope.capture, Setting.countP_map]

/-- A new variable, the slot of it, and the slot of what is put in its place. -/
theorem slot_after (h : s.Takes k decl l as) {i : Nat} (hi : Γ.last < i)
    (hle : i ≤ (Γ.capture s decl as).last) :
    ∃ slot, Setting.slot? (s.paramsOf decl) Γ.last as i = some slot ∧
      Setting.slot? (s.paramsOf decl) R.scope.last (as.map (Arg.rebuild R.put))
        (R.scope.last + (i - Γ.last)) =
          some (slot.1, slot.2.1.rebuild R.put, slot.2.2.rebuild R.put) := by
  obtain ⟨slot, hslot⟩ := Setting.slot?_isSome h.length_le hi hle
  refine ⟨slot, hslot, ?_⟩
  rw [Setting.slot?, if_pos hi] at hslot
  rw [Setting.slot?, if_pos (by omega), Setting.slots_map, List.getElem?_map,
    show R.scope.last + (i - Γ.last) - R.scope.last - 1 = i - Γ.last - 1 by omega, hslot]
  rfl

/-- The bound of a parameter after capturing, with types put in. -/
theorem bound_put (hs : s.Regular k) (h : s.Takes k decl l as)
    (hR : ∀ a ∈ as, ∀ v ∈ a.vars, R.has v) (hlen : as.length = l.params.length) {p : TypeVar}
    (hp : p ∈ l.params) :
    ((s.catalog.upper p).rebuild (Setting.capturedImage (s.paramsOf decl) Γ.last as)).rebuild
        R.putAfter =
      (s.catalog.upper p).rebuild
        (Setting.capturedImage (s.paramsOf decl) R.scope.last (as.map (Arg.rebuild R.put))) := by
  have hargs := R.captureArgs_put 0 hR
  rw [Nat.add_zero, Nat.add_zero] at hargs
  have hps := Setting.paramsOf_eq h.lineage
  rw [Setting.capturedImage, Ty.rebuild_zip ?_ R.siteless_putAfter ?_, Setting.capturedImage,
    ← hargs, Setting.type?_map_rebuild]
  · rw [Setting.length_captured_types, hps]
    exact Nat.le_of_eq hlen.symm
  · intro v hv
    obtain ⟨q, hq, rfl⟩ := (hs.bounds decl l h.lineage p hp).2 v hv
    exact ⟨q, hps ▸ hq, rfl⟩

/-- Capturing adds to the scope. -/
theorem le_scopeAfter : R.scope.Le (R.scopeAfter decl as) := Scope.le_capture ..

/-- The scope after capturing is sound. -/
theorem sound_after (hs : s.Regular k) (h : s.Takes k decl l as)
    (hR : ∀ a ∈ as, ∀ v ∈ a.vars, R.has v) :
    (R.scopeAfter decl as).Sound s k (Scope.widen R.among R.scope (R.scopeAfter decl as)) :=
  R.sound.capture hs (suits_put h hR)

/-- What is put in for the new variables is regular in the new scope. -/
theorem regular_after {v : Var} (hv : R.hasAfter decl as v) :
    (R.putAfter v).Regular s k ∧
      (R.putAfter v).Over (Scope.widen R.among R.scope (R.scopeAfter decl as)) := by
  rcases hv with hv | ⟨i, rfl, hi, hle⟩
  · rw [R.putAfter_of_has hv]
    exact ⟨(R.regular v hv).1, (R.regular v hv).2.mono fun _ => .inl⟩
  · rw [putAfter, if_pos hi]
    refine ⟨by rw [Ty.Regular]; trivial, fun w hw => ?_⟩
    rw [Ty.vars, List.mem_singleton] at hw
    refine ⟨_, hw, .inr ⟨by omega, ?_⟩⟩
    have : i ≤ Γ.last + as.countP Arg.isWild := hle
    rw [last_scopeAfter]
    omega

/-- What is put in for an old variable has the bounds it should have. -/
theorem bound_after_old {i : Nat} (hi : R.has (.captured i)) :
    ∃ j, R.putAfter (.captured i) = .var (.captured j) ∧
      (R.scopeAfter decl as).lower j = ((Γ.capture s decl as).lower i).rebuild R.putAfter ∧
        ∀ Δ D, (R.scopeAfter decl as).Le Δ → Δ.Sound s k D →
          (∀ j, Scope.widen R.among R.scope (R.scopeAfter decl as) j → D j) → ∀ t,
            Below s Δ (((Γ.capture s decl as).upper i).rebuild R.putAfter) t →
              Below s Δ ((R.scopeAfter decl as).upper j) t := by
  obtain ⟨j, hput, hlower, hupper⟩ := R.bound i hi
  obtain ⟨hu, hl⟩ := R.closed i hi
  have hle := R.le_last i hi
  have hj : j ≤ R.scope.last := by
    obtain ⟨j', hj', hC⟩ := (R.regular _ hi).2 (.captured j) (by rw [hput]; simp [Ty.vars])
    injection hj' with hj'
    exact hj' ▸ R.sound.le_last j' hC
  refine ⟨j, (R.putAfter_of_has hi).trans hput, ?_, fun Δ D hΔ hD hsub t h => ?_⟩
  · rw [scopeAfter, Scope.capture_lower_of_le hj, Scope.capture_lower_of_le hle, hlower,
      R.rebuild_putAfter hl]
  · rw [Scope.capture_upper_of_le hle, R.rebuild_putAfter hu] at h
    rw [scopeAfter, Scope.capture_upper_of_le hj]
    exact hupper Δ D (le_scopeAfter.trans hΔ) hD (fun j hj => hsub j (.inl hj)) t h

/-- What is put in for a new variable has the bounds it should have. -/
theorem bound_after_new (hs : s.Regular k) (h : s.Takes k decl l as)
    (hR : ∀ a ∈ as, ∀ v ∈ a.vars, R.has v) {i : Nat} (hi : Γ.last < i)
    (hle : i ≤ (Γ.capture s decl as).last) :
    ∃ j, R.putAfter (.captured i) = .var (.captured j) ∧
      (R.scopeAfter decl as).lower j = ((Γ.capture s decl as).lower i).rebuild R.putAfter ∧
        ∀ Δ D, (R.scopeAfter decl as).Le Δ → Δ.Sound s k D →
          (∀ j, Scope.widen R.among R.scope (R.scopeAfter decl as) j → D j) → ∀ t,
            Below s Δ (((Γ.capture s decl as).upper i).rebuild R.putAfter) t →
              Below s Δ ((R.scopeAfter decl as).upper j) t := by
  obtain ⟨⟨p, u, lo⟩, hslot, hslot'⟩ := slot_after (R := R) h hi hle
  have hmem := (Setting.mem_slots_of_slot? hslot).1
  obtain ⟨rfl, hp, hur, hlr, hlen⟩ := h.of_slot hmem
  have hcov := hR _ (Setting.mem_slots hmem).2
  simp only [Arg.vars, List.mem_append] at hcov
  have hu : R.Covers u := fun v hv => hcov v (.inl hv)
  have hl : R.Covers lo := fun v hv => hcov v (.inr hv)
  have hbound := bound_put hs h hR hlen hp
  have hput : u.shape.rebuild R.putAfter = u.rebuild R.put := by
    rw [Ty.rebuild_shape, R.rebuild_putAfter hu]
  refine ⟨R.scope.last + (i - Γ.last), by rw [putAfter, if_pos hi], ?_, fun Δ D hΔ hD hsub t ht => ?_⟩
  · rw [scopeAfter, Scope.capture_lower hslot', Scope.capture_lower hslot,
      Ty.shape_rebuild R.siteless, Ty.rebuild_shape, R.rebuild_putAfter hl]
  · rw [Scope.capture_upper hslot, Setting.capturedUpper] at ht
    rw [scopeAfter, Scope.capture_upper hslot', Setting.capturedUpper, Ty.shape_rebuild R.siteless,
      ← hbound, ← hput]
    obtain ⟨hreg, hvars⟩ := hs.bounds decl l h.lineage p hp
    refine Below.meetBounds_rebuild hs hD R.siteless_putAfter ?_ ?_ ?_ ?_ ht
    · rw [hput]
      exact R.regular_put hur hu
    · rw [hbound]
      refine hreg.rebuild fun v hv => ?_
      obtain ⟨q, hq, rfl⟩ := hvars v hv
      exact (Scope.vars_capturedImage (suits_put h hR).toTakes (by simpa using hlen) hq).1
    · rw [hput]
      exact (R.over_put hu).mono fun j hj => hsub j (.inl hj)
    · rw [hbound]
      intro v hv
      obtain ⟨w, hw, hv⟩ := Ty.mem_vars_rebuild.1 hv
      obtain ⟨q, hq, rfl⟩ := hvars w hw
      exact (Scope.over_capturedImage (suits_put h hR) (by simpa using hlen) hq).mono hsub v hv

/-- The bounds of the variables that something is put in for mention only such variables. -/
theorem closed_after (hs : s.Regular k) (h : s.Takes k decl l as)
    (hR : ∀ a ∈ as, ∀ v ∈ a.vars, R.has v) {i : Nat} (hi : R.hasAfter decl as (.captured i)) :
    (∀ v ∈ ((Γ.capture s decl as).upper i).vars, R.hasAfter decl as v) ∧
      ∀ v ∈ ((Γ.capture s decl as).lower i).vars, R.hasAfter decl as v := by
  rcases hi with hi | ⟨i', hi', hlt, hle⟩
  · obtain ⟨hu, hl⟩ := R.closed i hi
    rw [Scope.capture_upper_of_le (R.le_last i hi), Scope.capture_lower_of_le (R.le_last i hi)]
    exact ⟨fun v hv => .inl (hu v hv), fun v hv => .inl (hl v hv)⟩
  · injection hi' with hi'
    subst hi'
    have harg : ∀ v, (∃ a ∈ as, v ∈ a.vars) → R.has v := fun v ⟨a, ha, hv⟩ => hR a ha v hv
    obtain ⟨_, hu, hl⟩ := Scope.capture_new hs h hlt hle
    exact ⟨fun v hv => (hu v hv).imp_left (harg v), fun v hv => .inl (harg v (hl v hv))⟩

/-- **Capturing extends a realization.** -/
def capture (R : Realization s k Γ U σ) (hs : s.Regular k) (h : s.Takes k decl l as)
    (hR : ∀ a ∈ as, ∀ v ∈ a.vars, R.has v) : Realization s k (Γ.capture s decl as) U σ where
  scope := R.scopeAfter decl as
  among := Scope.widen R.among R.scope (R.scopeAfter decl as)
  has := R.hasAfter decl as
  put := R.putAfter
  sound := sound_after hs h hR
  siteless := R.siteless_putAfter
  proper v := by
    cases v with
    | declared v => exact R.proper _
    | captured i =>
      rw [putAfter]
      split
      · exact ⟨rfl, rfl⟩
      · exact R.proper _
  regular _ hv := regular_after hv
  given v hv := by
    rcases hv with hv | ⟨i, hi, _⟩
    · exact R.given v hv
    · cases hi
  le_last i hi := by
    rcases hi with hi | ⟨i', hi', _, hle⟩
    · exact Nat.le_trans (R.le_last i hi) (Scope.le_capture s Γ decl as).last
    · injection hi' with hi'
      exact hi' ▸ hle
  bound i hi := by
    rcases hi with hi | ⟨i', hi', hlt, hle⟩
    · exact bound_after_old hi
    · injection hi' with hi'
      subst hi'
      exact bound_after_new hs h hR hlt hle
  closed _ hi := closed_after hs h hR hi

/-- The captured arguments are covered by the realization after capturing. -/
theorem hasAfter_captureArgs (decl : String) (hR : ∀ a ∈ as, ∀ v ∈ a.vars, R.has v) :
    ∀ a ∈ Setting.captureArgs Γ.last as, ∀ v ∈ a.vars, R.hasAfter decl as v := fun _ ha v hv =>
  (Scope.vars_captureArgs s Γ decl ha hv).imp_left fun ⟨a, ha, hv⟩ => hR a ha v hv

/-- The variables on which two scopes agree, put in for themselves. -/
def ofAgree {Δ : Scope} {C : Nat → Prop} (hΓ : Γ.Sound s k C) (h : Γ.Agree Δ C)
    (hle : ∀ i, C i → i ≤ Δ.last) : Realization s k Γ U σ where
  scope := Δ
  among := C
  has v := ∃ i, v = .captured i ∧ C i
  put := .var
  sound := hΓ.agree h hle
  siteless _ := rfl
  proper _ := ⟨rfl, rfl⟩
  regular v hv := by
    refine ⟨by rw [Ty.Regular]; trivial, fun w hw => ?_⟩
    rw [Ty.vars, List.mem_singleton] at hw
    exact hw ▸ hv
  given v hv := by
    obtain ⟨i, hi, _⟩ := hv
    cases hi
  le_last i hi := by
    obtain ⟨i', hi', hC⟩ := hi
    injection hi' with hi'
    exact hi' ▸ hΓ.le_last i' hC
  bound i hi := by
    obtain ⟨i', hi', hC⟩ := hi
    injection hi' with hi'
    subst hi'
    obtain ⟨hu, hl⟩ := h i hC
    obtain ⟨hus, hls⟩ := hΓ.shaped i hC
    refine ⟨i, rfl, ?_, fun Δ' D _ _ _ t ht => ?_⟩
    · rw [hl]
      exact hls.symm
    · rw [hu, ← hus]
      exact ht
  closed i hi := by
    obtain ⟨i', hi', hC⟩ := hi
    injection hi' with hi'
    subst hi'
    exact hΓ.closed i hC

/-- A realization of a scope is one of every larger scope. -/
def ofLe {Δ : Scope} (R : Realization s k Γ U σ) (h : Γ.Le Δ) : Realization s k Δ U σ where
  scope := R.scope
  among := R.among
  has := R.has
  put := R.put
  sound := R.sound
  siteless := R.siteless
  proper := R.proper
  regular := R.regular
  given := R.given
  le_last i hi := Nat.le_trans (R.le_last i hi) h.last
  bound i hi := by
    rw [h.upper i (R.le_last i hi), h.lower i (R.le_last i hi)]
    exact R.bound i hi
  closed i hi := by
    rw [h.upper i (R.le_last i hi), h.lower i (R.le_last i hi)]
    exact R.closed i hi

end Realization

/-- In every realization of the scope the first type is below the second one. -/
def Good (s : Setting) (k : Fragment) (Γ : Scope) (U : TypeVar → Prop) (σ : Var → Ty)
    (a b : Ty) : Prop :=
  ∀ R : Realization s k Γ U σ, R.Covers a → R.Covers b →
    Below s R.scope (a.rebuild R.put) (b.rebuild R.put)

/-- What rebuilt arguments demand of each other is what the arguments demand, rebuilt. -/
theorem Arg.demandsAll_map (f : Var → Ty) (as bs : List Arg) :
    Arg.demandsAll (as.map (Arg.rebuild f)) (bs.map (Arg.rebuild f)) =
      (Arg.demandsAll as bs).map fun x => (x.1.rebuild f, x.2.rebuild f) := by
  rw [Arg.demandsAll, Arg.demandsAll, List.zip_map, List.flatMap_map,
    List.map_flatMap]
  congr 1
  funext ⟨a, b⟩
  cases a <;> cases b <;> rfl

namespace Good

variable {s : Setting} {k : Fragment} {Γ Δ : Scope} {U : TypeVar → Prop} {σ : Var → Ty}
  {a b m : Ty} {st st' : Site} {d e : String} {as bs cs : List Arg} {ms : List Ty}

/-- Whether a comparison is good does not depend on identities. -/
theorem shape_iff : Good s k Γ U σ a.shape b.shape ↔ Good s k Γ U σ a b := by
  unfold Good Realization.Covers
  simp only [Ty.vars_shape, Ty.rebuild_shape]

/-- A pair that is good in a larger scope is good. -/
theorem mono (hle : Γ.Le Δ) (h : Good s k Δ U σ a b) : Good s k Γ U σ a b :=
  fun R ha hb => h (R.ofLe hle) ha hb

/-- `Null` is below everything, in every realization. -/
theorem null : Good s k Γ U σ .null b := fun _ _ _ => .null _ _

/-- **A regular type is good with itself.** -/
theorem self (hs : s.Regular k) (ha : a.Regular s k) : Good s k Γ U σ a a := by
  intro R hR _
  rw [← Ty.shape_rebuild R.siteless]
  exact Below.refl_self hs (R.regular_put ha hR) R.sound (R.over_put hR)

/-- A primitive type is below itself, in every realization. -/
theorem prim (p : Primitive) : Good s k Γ U σ (.prim p) (.prim p) := fun _ _ _ => .prim _ p

/-- An applied declaration is below what it inherits from, taken raw, in every realization. -/
theorem raw (h : Query.Settles s (s.inherits d e) (.ok true)) :
    Good s k Γ U σ (.nominal st d as) (.nominal st' e []) := by
  intro R _ _
  rw [Ty.rebuild_nominal, Ty.rebuild_nominal]
  exact .raw h

/-- **Applied declarations are good if their arguments are good after capture.** -/
theorem args {l : Lineage} (hs : s.Regular k) (h : s.Takes k d l as)
    (hi : Query.Settles s (s.inherits d e) (.ok true)) (hbs : bs ≠ [])
    (hraw : as = [] → s.paramsOf d = [])
    (hseen : s.SeenAs e d (Setting.captureArgs Γ.last as) cs) (hlen : cs.length = bs.length)
    (hgood : ∀ x ∈ Arg.demandsAll cs bs, Good s k (Γ.capture s d as) U σ x.1 x.2) :
    Good s k Γ U σ (.nominal st d as) (.nominal st' e bs) := by
  intro R ha hb
  rw [Ty.rebuild_nominal, Ty.rebuild_nominal]
  have hR : ∀ a ∈ as, ∀ v ∈ a.vars, R.has v := fun a ha' v hv =>
    ha v (by rw [Ty.vars, Arg.mem_varsAll]; exact ⟨a, ha', hv⟩)
  have hRb : ∀ b ∈ bs, ∀ v ∈ b.vars, R.has v := fun b hb' v hv =>
    hb v (by rw [Ty.vars, Arg.mem_varsAll]; exact ⟨b, hb', hv⟩)
  have hfits := Setting.fits_captureArgs h Γ.last
  have hseen' := hseen.rebuild hs.parentsFit hs.parentsOwn R.siteless_putAfter hfits
  have hargs := R.captureArgs_put 0 hR
  rw [Nat.add_zero, Nat.add_zero] at hargs
  rw [hargs] at hseen'
  refine .args hi (by simpa using hbs) (by simpa using hraw) hseen' (by simpa using hlen) ?_
  have hbs' : bs.map (Arg.rebuild R.put) = bs.map (Arg.rebuild R.putAfter) :=
    List.map_congr_left fun b hb => (R.rebuild_arg_putAfter (hRb b hb)).symm
  intro x hx
  rw [hbs', Arg.demandsAll_map] at hx
  obtain ⟨y, hy, rfl⟩ := List.mem_map.1 hx
  have hcs := hseen.regular hs hfits (Setting.regular_captureArgs h Γ.last)
    (Realization.hasAfter_captureArgs d hR)
  have hcov : ∀ c ∈ cs, ∀ t ∈ c.parts, (R.capture hs h hR).Covers t := fun c hc t ht v hv =>
    (hcs c hc).2 v (Arg.mem_vars_of_parts ht hv)
  have hcov' : ∀ b ∈ bs, ∀ t ∈ b.parts, (R.capture hs h hR).Covers t := fun b hb t ht v hv =>
    .inl (hRb b hb v (Arg.mem_vars_of_parts ht hv))
  obtain ⟨c, hc, b, hb, ⟨h₁, h₂⟩ | ⟨h₁, h₂⟩⟩ := Arg.mem_demandsAll hy
  · exact hgood y hy (R.capture hs h hR) (hcov c hc _ h₁) (hcov' b hb _ h₂)
  · exact hgood y hy (R.capture hs h hR) (hcov' b hb _ h₁) (hcov c hc _ h₂)

/-- A type is below an intersection if it is below each member. -/
theorem members (hms : ∀ m ∈ ms, m.isInter = false) (h : ∀ m ∈ ms, Good s k Γ U σ a m) :
    Good s k Γ U σ a (.inter st ms) := by
  intro R ha hb
  rw [Ty.rebuild_inter (fun v => (R.proper v).1) hms]
  refine .members fun m' hm' => ?_
  obtain ⟨m, hm, rfl⟩ := List.mem_map.1 hm'
  exact h m hm R ha fun v hv => hb v (by rw [Ty.vars, Ty.mem_varsAll]; exact ⟨m, hm, hv⟩)

/-- What `Object` is below of, the intersection without members is. -/
theorem top (hb : b.isInter = false) (h : Good s k Γ U σ .object b) :
    Good s k Γ U σ (.inter st []) b := by
  intro R _ hRb
  exact .top ((R.isInter_put b).trans hb) (h R (fun v hv => by cases hv) hRb)

/-- An intersection is below a type if one of its members is. -/
theorem member (hms : ∀ m ∈ ms, m.isInter = false) (hb : b.isInter = false) (hm : m ∈ ms)
    (h : Good s k Γ U σ m b) : Good s k Γ U σ (.inter st ms) b := by
  intro R ha hRb
  rw [Ty.rebuild_inter (fun v => (R.proper v).1) hms]
  refine .member ((R.isInter_put b).trans hb) (List.mem_map_of_mem hm) (h R (fun v hv => ?_) hRb)
  exact ha v (by rw [Ty.vars, Ty.mem_varsAll]; exact ⟨m, hm, hv⟩)

/-- A captured variable is below what its upper bound is below of. -/
theorem upper {i : Nat} (hb : b.isInter = false) (h : Good s k Γ U σ (Γ.upper i) b) :
    Good s k Γ U σ (.var (.captured i)) b := by
  intro R ha hRb
  have hi := ha (.captured i) (by simp [Ty.vars])
  obtain ⟨j, hput, _, hupper⟩ := R.bound i hi
  rw [Ty.rebuild, hput]
  refine .upper ((R.isInter_put b).trans hb) ?_
  exact hupper R.scope R.among (.refl _) R.sound (fun _ hj => hj) _ (h R (R.closed i hi).1 hRb)

/-- What is below the lower bound of a captured variable is below the variable. -/
theorem lower {i : Nat} (h : Good s k Γ U σ a (Γ.lower i)) :
    Good s k Γ U σ a (.var (.captured i)) := by
  intro R ha hRb
  have hi := hRb (.captured i) (by simp [Ty.vars])
  obtain ⟨j, hput, hlower, _⟩ := R.bound i hi
  rw [Ty.rebuild, hput]
  refine Below.lower_of_any ?_
  rw [hlower]
  exact h R ha (R.closed i hi).2

/-- Arrays are compared by their elements. -/
theorem component (ha : a.isPrim = false) (hb : b.isPrim = false) (h : Good s k Γ U σ a b) :
    Good s k Γ U σ (.array a) (.array b) := by
  intro R hRa hRb
  exact .component ((R.isPrim_put a).trans ha) ((R.isPrim_put b).trans hb) (h R hRa hRb)

/-- Arrays of one primitive type are below themselves. -/
theorem components (p : Primitive) : Good s k Γ U σ (.array (.prim p)) (.array (.prim p)) :=
  fun _ _ _ => .components _ p

/-- Arrays are below the parents of all arrays. -/
theorem arrayParent (h : s.isArrayParent e [] = true) :
    Good s k Γ U σ (.array a) (.nominal st e []) := by
  intro R _ _
  exact .arrayParent h

end Good

/-! ### Derivations are good -/

/-- The type is a primitive, or regular. -/
def Ty.Whole (s : Setting) (k : Fragment) (t : Ty) : Prop := t.isPrim = true ∨ t.Regular s k

section Parts

variable {s : Setting} {k : Fragment} {C : Nat → Prop} {st : Site}

/-- Regular types are whole. -/
theorem Ty.Regular.whole {t : Ty} (h : t.Regular s k) : t.Whole s k := .inr h

/-- Forgetting identities keeps types whole. -/
theorem Ty.Whole.shape {t : Ty} (h : t.Whole s k) : t.shape.Whole s k :=
  h.imp (fun h => by cases t <;> exact h) Ty.Regular.shape

/-- Whole applied declarations are regular. -/
theorem Ty.Whole.nominal {d : String} {as : List Arg} (h : (Ty.nominal st d as).Whole s k) :
    (Ty.nominal st d as).Regular s k := by
  rcases h with h | h
  · cases h
  · exact h

/-- The elements of a whole array type are whole. -/
theorem Ty.Whole.component {t : Ty} (h : (Ty.array t).Whole s k) : t.Whole s k := by
  rcases h with h | h
  · cases h
  · rw [Ty.Regular] at h
    exact h

/-- The members of a whole intersection are regular and no intersections. -/
theorem Ty.Whole.members {ms : List Ty} (h : (Ty.inter st ms).Whole s k) :
    ∀ m ∈ ms, m.isInter = false ∧ m.Regular s k := by
  rcases h with h | h
  · cases h
  · rw [Ty.Regular] at h
    exact Ty.regularAll_iff.1 h.2

/-- A member mentions only captured variables that the intersection does. -/
theorem Ty.Over.member {ms : List Ty} (h : (Ty.inter st ms).Over C) {m : Ty} (hm : m ∈ ms) :
    m.Over C := fun v hv => h v (by rw [Ty.vars, Ty.mem_varsAll]; exact ⟨m, hm, hv⟩)

/-- An argument mentions only captured variables that the applied declaration does. -/
theorem Ty.Over.arg {d : String} {as : List Arg} (h : (Ty.nominal st d as).Over C) {a : Arg}
    (ha : a ∈ as) {t : Ty} (ht : t ∈ a.parts) : t.Over C := fun v hv =>
  h v (by rw [Ty.vars, Arg.mem_varsAll]; exact ⟨a, ha, Arg.mem_vars_of_parts ht hv⟩)

/-- A captured variable, taken as a type, mentions itself only. -/
theorem Ty.Over.captured {i : Nat} (h : (Ty.var (.captured i)).Over C) : C i :=
  h.of_mem_conjuncts List.mem_cons_self

/-- `Object` mentions no captured variable. -/
theorem Ty.over_object : Ty.object.Over C := fun v hv => by cases hv

/-- `Object` is regular. -/
theorem Ty.regular_object (hs : s.Regular k) : Ty.object.Regular s k := by
  rw [Ty.object, Ty.Regular]
  exact ⟨⟨_, hs.object, .inl rfl⟩, by rw [Arg.RegularAll]; trivial⟩

end Parts

namespace Setting

variable {s : Setting} {k : Fragment} {Γ : Scope} {C : Nat → Prop} {d e : String} {l : Lineage}
  {as bs cs : List Arg} {st : Site}

/-- Arguments after capture are over the old and the new variables. -/
theorem Suits.over_captureArgs (h : s.Suits k C d l as) :
    ∀ a ∈ captureArgs Γ.last as, ∀ v ∈ a.vars,
      ∃ i, v = .captured i ∧ Scope.widen C Γ (Γ.capture s d as) i := by
  intro a ha v hv
  rcases Scope.vars_captureArgs s Γ d ha hv with ⟨a, ha, hv⟩ | hnew
  · obtain ⟨i, hi, hC⟩ := h.argsOver a ha v hv
    exact ⟨i, hi, .inl hC⟩
  · exact hnew.widen

/-- **What is asked after capture is asked of regular types over the old and the new variables.** -/
theorem Suits.demands (hs : s.Regular k) (h : s.Suits k C d l as)
    (hseen : s.SeenAs e d (captureArgs Γ.last as) cs) (hb : (Ty.nominal st e bs).Regular s k)
    (ho : (Ty.nominal st e bs).Over C) {x : Ty × Ty} (hx : x ∈ Arg.demandsAll cs bs) :
    (x.1.Regular s k ∧ x.1.Over (Scope.widen C Γ (Γ.capture s d as))) ∧
      x.2.Regular s k ∧ x.2.Over (Scope.widen C Γ (Γ.capture s d as)) := by
  have hcs := hseen.regular hs (fits_captureArgs h.toTakes Γ.last)
    (regular_captureArgs h.toTakes Γ.last) h.over_captureArgs
  rw [Ty.Regular] at hb
  have hbs := Arg.regularAll_iff.1 hb.2
  have hfound : ∀ c ∈ cs, ∀ t ∈ c.parts,
      t.Regular s k ∧ t.Over (Scope.widen C Γ (Γ.capture s d as)) := fun c hc t ht =>
    ⟨(hcs c hc).1.parts ht, fun v hv => (hcs c hc).2 v (Arg.mem_vars_of_parts ht hv)⟩
  have hasked : ∀ b ∈ bs, ∀ t ∈ b.parts,
      t.Regular s k ∧ t.Over (Scope.widen C Γ (Γ.capture s d as)) := fun b hb t ht =>
    ⟨(hbs b hb).parts ht, (ho.arg hb ht).mono fun _ => .inl⟩
  obtain ⟨c, hc, b, hb, ⟨h₁, h₂⟩ | ⟨h₁, h₂⟩⟩ := Arg.mem_demandsAll hx
  · exact ⟨hfound c hc _ h₁, hasked b hb _ h₂⟩
  · exact ⟨hasked b hb _ h₁, hfound c hc _ h₂⟩

end Setting

section Transport

variable {s : Setting} {k : Fragment} {Γ Δ : Scope} {C : Nat → Prop} {U : TypeVar → Prop}
  {σ : Var → Ty} {a b : Ty}

/-- **What is derived is good.** -/
theorem good_of_below (hs : s.Regular k) (h : Below s Γ a b) (hΓ : Γ.Sound s k C)
    (ha : a.Whole s k) (hb : b.Whole s k) (hao : a.Over C) (hbo : b.Over C) :
    Good s k Γ U σ a b := by
  induction h generalizing C with
  | null => exact .null
  | raw hi => exact .raw hi
  | args hi hbs hraw hseen hlen _ ih =>
    obtain ⟨l, hsuits⟩ := Setting.suits_of_regular ha.nominal hao
    refine .args hs hsuits.toTakes hi hbs hraw hseen hlen fun x hx => ?_
    obtain ⟨⟨hr₁, ho₁⟩, hr₂, ho₂⟩ := hsuits.demands hs hseen hb.nominal hbo hx
    exact ih x hx (hΓ.capture hs hsuits) hr₁.whole hr₂.whole ho₁ ho₂
  | members _ ih =>
    have hms := hb.members
    exact .members (fun m hm => (hms m hm).1) fun m hm =>
      ih m hm hΓ ha (hms m hm).2.whole hao (hbo.member hm)
  | top hflat _ ih => exact .top hflat (ih hΓ (Ty.regular_object hs).whole hb Ty.over_object hbo)
  | member hflat hm _ ih =>
    have hms := ha.members
    exact .member (fun m hm => (hms m hm).1) hflat hm
      (ih hΓ (hms _ hm).2.whole hb (hao.member hm) hbo)
  | upper hflat _ ih =>
    have hi := hao.captured
    exact .upper hflat (ih hΓ (hΓ.regular _ hi).1.whole hb (hΓ.closed _ hi).1 hbo)
  | lower _ _ ih =>
    have hi := hbo.captured
    exact .lower (ih hΓ ha (hΓ.regular _ hi).2.whole hao (hΓ.closed _ hi).2)
  | refl => exact .self hs (by rw [Ty.Regular]; trivial)
  | component ha' hb' _ ih => exact .component ha' hb' (ih hΓ ha.component hb.component hao hbo)
  | components _ p => exact .components p
  | arrayParent hp => exact .arrayParent hp
  | prim _ p => exact .prim p

/-- **Scopes that agree on some variables agree on types over them.** -/
theorem Below.agree (hs : s.Regular k) (h : Below s Γ a b) (hΓ : Γ.Sound s k C)
    (hΔ : Γ.Agree Δ C) (hle : ∀ i, C i → i ≤ Δ.last) (ha : a.Whole s k) (hb : b.Whole s k)
    (hao : a.Over C) (hbo : b.Over C) : Below s Δ a.shape b.shape :=
  good_of_below (U := fun _ => False) (σ := .var) hs h hΓ ha hb hao hbo (.ofAgree hΓ hΔ hle) hao hbo

/-- What holds of shapes in a scope holds in a larger one and conversely. -/
theorem Below.le_iff (hs : s.Regular k) (hΓ : Γ.Sound s k C) (hle : Γ.Le Δ) (ha : a.Whole s k)
    (hb : b.Whole s k) (hao : a.Over C) (hbo : b.Over C) :
    Below s Δ a.shape b.shape ↔ Below s Γ a.shape b.shape := by
  have hagree := hle.agree hΓ.le_last
  constructor
  · intro h
    have := h.agree hs (hΓ.mono hle) hagree.symm hΓ.le_last ha.shape hb.shape hao.shape hbo.shape
    simpa only [Ty.shape_shape] using this
  · intro h
    have := h.agree hs hΓ hagree (hΓ.mono hle).le_last ha.shape hb.shape hao.shape hbo.shape
    simpa only [Ty.shape_shape] using this

end Transport
end Generics
