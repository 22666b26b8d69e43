/-
# Scopes of captured variables

A `Scope` gives captured variables their bounds, up to a number. It is `Sound` on some of its
variables if their bounds are regular shapes that mention only such variables, and none of
them is bounded by itself.

Capturing an applied declaration extends the scope by one variable for each wildcard among the
arguments (`Scope.capture`). The extended scope keeps the bounds there were
(`Scope.le_capture`) and is sound on the old and the new variables if the former one is sound
(`Scope.Sound.capture`): a new variable leads to old ones, and to new ones only as the
parameters that they stand for lead to each other.
-/

import Generics.Proofs.Regularity

namespace Generics

/-- The bounds of captured variables, up to a number. -/
structure Scope where
  upper : Nat → Ty
  lower : Nat → Ty
  last : Nat

/-- The variables of the type are captured ones among those given. -/
def Ty.Over (C : Nat → Prop) (t : Ty) : Prop := ∀ v ∈ t.vars, ∃ i, v = .captured i ∧ C i

/-- What mentions given captured variables only mentions no others than a larger choice has. -/
theorem Ty.Over.mono {C D : Nat → Prop} {t : Ty} (h : t.Over C) (hCD : ∀ i, C i → D i) :
    t.Over D := by
  intro v hv
  obtain ⟨i, rfl, hi⟩ := h v hv
  exact ⟨i, rfl, hCD i hi⟩

/-- Forgetting identities changes no variable. -/
theorem Ty.Over.shape {C : Nat → Prop} {t : Ty} (h : t.Over C) : t.shape.Over C := by
  intro v hv
  exact h v (by rwa [Ty.vars_shape] at hv)

/-- A variable that a type consists of is one of its variables. -/
theorem Ty.mem_vars_of_mem_conjuncts {t : Ty} {v : Var} (h : Ty.var v ∈ t.conjuncts) :
    v ∈ t.vars := by
  rw [← Ty.varsAll_conjuncts, Ty.mem_varsAll]
  exact ⟨_, h, by simp [Ty.vars]⟩

/-- A captured variable that a type consists of is one of those given. -/
theorem Ty.Over.of_mem_conjuncts {C : Nat → Prop} {t : Ty} (h : t.Over C) {i : Nat}
    (hi : Ty.var (.captured i) ∈ t.conjuncts) : C i := by
  obtain ⟨j, hj, hC⟩ := h _ (Ty.mem_vars_of_mem_conjuncts hi)
  injection hj with hj
  exact hj ▸ hC

namespace Scope

/-- The second scope has the variables of the first one, with the same bounds. -/
structure Le (Γ Δ : Scope) : Prop where
  last : Γ.last ≤ Δ.last
  upper : ∀ i ≤ Γ.last, Δ.upper i = Γ.upper i
  lower : ∀ i ≤ Γ.last, Δ.lower i = Γ.lower i

variable {s : Setting} {k : Fragment} {Γ Δ Θ : Scope} {C D : Nat → Prop}

/-- A scope is part of itself. -/
theorem Le.refl (Γ : Scope) : Γ.Le Γ := ⟨Nat.le_refl _, fun _ _ => rfl, fun _ _ => rfl⟩

/-- Parts of a part are parts. -/
theorem Le.trans (h₁ : Γ.Le Δ) (h₂ : Δ.Le Θ) : Γ.Le Θ where
  last := Nat.le_trans h₁.last h₂.last
  upper i hi := (h₂.upper i (Nat.le_trans hi h₁.last)).trans (h₁.upper i hi)
  lower i hi := (h₂.lower i (Nat.le_trans hi h₁.last)).trans (h₁.lower i hi)

/-- The first variable is a bound of the second one, or a member of a bound. -/
def Bare (Γ : Scope) (i j : Nat) : Prop :=
  Ty.var (.captured i) ∈ (Γ.upper j).conjuncts ∨ Ty.var (.captured i) ∈ (Γ.lower j).conjuncts

/-- On the given variables the scope is in order: bounds are regular shapes over them, and none
is bounded by itself. -/
structure Sound (s : Setting) (k : Fragment) (Γ : Scope) (C : Nat → Prop) : Prop where
  le_last : ∀ i, C i → i ≤ Γ.last
  shaped : ∀ i, C i → (Γ.upper i).shape = Γ.upper i ∧ (Γ.lower i).shape = Γ.lower i
  regular : ∀ i, C i → (Γ.upper i).Regular s k ∧ (Γ.lower i).Regular s k
  closed : ∀ i, C i → (Γ.upper i).Over C ∧ (Γ.lower i).Over C
  ranked : ∀ i, C i → Acc Γ.Bare i

/-- A way along bounds stays within the variables on which a scope is in order. -/
theorem Sound.bare (h : Γ.Sound s k C) {i j : Nat} (hj : C j) (hij : Γ.Bare i j) : C i := by
  rcases hij with hij | hij
  · exact (h.closed j hj).1.of_mem_conjuncts hij
  · exact (h.closed j hj).2.of_mem_conjuncts hij

/-- The two scopes have the same bounds for the given variables. -/
def Agree (Γ Δ : Scope) (C : Nat → Prop) : Prop :=
  ∀ i, C i → Δ.upper i = Γ.upper i ∧ Δ.lower i = Γ.lower i

/-- Agreeing goes both ways. -/
theorem Agree.symm (h : Γ.Agree Δ C) : Δ.Agree Γ C := fun i hi => ⟨(h i hi).1.symm, (h i hi).2.symm⟩

/-- A scope agrees with a larger one on its own variables. -/
theorem Le.agree (h : Γ.Le Δ) (hC : ∀ i, C i → i ≤ Γ.last) : Γ.Agree Δ C :=
  fun i hi => ⟨h.upper i (hC i hi), h.lower i (hC i hi)⟩

/-- **A scope that agrees with a sound one is sound.** -/
theorem Sound.agree (h : Γ.Sound s k C) (hΔ : Γ.Agree Δ C) (hle : ∀ i, C i → i ≤ Δ.last) :
    Δ.Sound s k C where
  le_last := hle
  shaped i hi := by rw [(hΔ i hi).1, (hΔ i hi).2]; exact h.shaped i hi
  regular i hi := by rw [(hΔ i hi).1, (hΔ i hi).2]; exact h.regular i hi
  closed i hi := by rw [(hΔ i hi).1, (hΔ i hi).2]; exact h.closed i hi
  ranked i hi := by
    have hacc := h.ranked i hi
    induction hacc with
    | intro j _ ih =>
      refine ⟨j, fun i' hi' => ?_⟩
      have hbare : Γ.Bare i' j := by
        rw [Bare, (hΔ j hi).1, (hΔ j hi).2] at hi'
        exact hi'
      exact ih i' hbare (h.bare hi hbare)

/-- A scope that is in order stays in order as part of a larger one. -/
theorem Sound.mono (h : Γ.Sound s k C) (hle : Γ.Le Δ) : Δ.Sound s k C :=
  h.agree (hle.agree h.le_last) fun i hi => Nat.le_trans (h.le_last i hi) hle.last

end Scope

/-- The scope of what a memory has captured. -/
def Memory.scope (m : Memory) : Scope where
  upper i := (m.upper i).shape
  lower i := (m.lower i).shape
  last := m.lastCaptured

/-- The two memories have captured the same variables. -/
structure Memory.Keeps (m m' : Memory) : Prop where
  captured : m'.captured = m.captured
  last : m'.lastCaptured = m.lastCaptured

/-- A memory has captured what it has captured. -/
theorem Memory.Keeps.refl (m : Memory) : m.Keeps m := ⟨rfl, rfl⟩

/-- Memories that captured the same as a third one captured the same. -/
theorem Memory.Keeps.trans {m₁ m₂ m₃ : Memory} (h₁ : m₁.Keeps m₂) (h₂ : m₂.Keeps m₃) :
    m₁.Keeps m₃ := ⟨h₂.captured.trans h₁.captured, h₂.last.trans h₁.last⟩

/-- Learning of declarations captures nothing. -/
theorem Memory.Learns.keeps {m m' : Memory} (h : m.Learns m') : m.Keeps m' := ⟨h.captured, h.last⟩

/-- Memories that captured the same variables have one scope. -/
theorem Memory.Keeps.scope_eq {m m' : Memory} (h : m.Keeps m') : m'.scope = m.scope := by
  simp only [Memory.scope, Memory.upper, Memory.lower, Memory.captured?, h.captured, h.last]

/-! ### The variables captured for wildcards -/

namespace Setting

/-- The parameters of a declaration, none if it is not declared. -/
def paramsOf (s : Setting) (decl : String) : List TypeVar :=
  ((s.lineageOf decl).map Lineage.params).getD []

/-- The parameters of a declaration are those that are known of it. -/
theorem paramsOf_eq {s : Setting} {decl : String} {l : Lineage} (h : s.lineageOf decl = some l) :
    s.paramsOf decl = l.params := by
  rw [paramsOf, h]
  rfl

/-- The wildcards among the arguments, each with its parameter and its bounds. -/
def slots : List TypeVar → List Arg → List (TypeVar × Ty × Ty)
  | p :: ps, .wild upper lower :: as => (p, upper, lower) :: slots ps as
  | _ :: ps, .type _ :: as => slots ps as
  | _, _ => []

/-- The slot of a captured variable among those captured after a number. -/
def slot? (ps : List TypeVar) (last : Nat) (as : List Arg) (i : Nat) : Option (TypeVar × Ty × Ty) :=
  if last < i then (slots ps as)[i - last - 1]? else none

/-- What takes the place of the parameters when the arguments are captured after a number. -/
def capturedImage (ps : List TypeVar) (last : Nat) (as : List Arg) : Var → Ty :=
  (Subst.zip ps ((captureArgs last as).filterMap Arg.type?)).image

/-- The upper bound of the variable captured for a wildcard. -/
def capturedUpper (s : Setting) (f : Var → Ty) (slot : TypeVar × Ty × Ty) : Ty :=
  Ty.meetBounds .common slot.2.1.shape ((s.catalog.upper slot.1).rebuild f)

end Setting

/-- The scope after capturing the wildcards of an applied declaration. -/
def Scope.capture (s : Setting) (Γ : Scope) (decl : String) (as : List Arg) : Scope where
  upper i :=
    match Setting.slot? (s.paramsOf decl) Γ.last as i with
    | some slot => s.capturedUpper (Setting.capturedImage (s.paramsOf decl) Γ.last as) slot
    | none => Γ.upper i
  lower i :=
    match Setting.slot? (s.paramsOf decl) Γ.last as i with
    | some slot => slot.2.2.shape
    | none => Γ.lower i
  last := Γ.last + as.countP Arg.isWild

/-- The given variables and those that the second scope adds to the first one. -/
def Scope.widen (C : Nat → Prop) (Γ Δ : Scope) (i : Nat) : Prop :=
  C i ∨ (Γ.last < i ∧ i ≤ Δ.last)

namespace Setting

variable {ps : List TypeVar} {as : List Arg}

/-- A slot is a parameter with a wildcard among the arguments. -/
theorem mem_slots {slot : TypeVar × Ty × Ty} (h : slot ∈ slots ps as) :
    slot.1 ∈ ps ∧ Arg.wild slot.2.1 slot.2.2 ∈ as := by
  fun_induction slots ps as with
  | case1 p ps u l as ih =>
    rcases List.mem_cons.1 h with rfl | h
    · exact ⟨List.mem_cons_self, List.mem_cons_self⟩
    · exact ⟨List.mem_cons_of_mem _ (ih h).1, List.mem_cons_of_mem _ (ih h).2⟩
  | case2 p ps t as ih =>
    exact ⟨List.mem_cons_of_mem _ (ih h).1, List.mem_cons_of_mem _ (ih h).2⟩
  | case3 => exact absurd h List.not_mem_nil

/-- There are as many slots as wildcards. -/
theorem length_slots (h : as.length ≤ ps.length) :
    (slots ps as).length = as.countP Arg.isWild := by
  fun_induction slots ps as with
  | case1 p ps u l as ih =>
    rw [List.length_cons, ih (by simpa using h), List.countP_cons_of_pos (by rfl)]
  | case2 p ps t as ih =>
    rw [ih (by simpa using h), List.countP_cons_of_neg (by simp [Arg.isWild])]
  | case3 ps as h₁ h₂ =>
    cases ps with
    | nil =>
      rw [List.length_nil, Nat.le_zero, List.length_eq_zero_iff] at h
      rw [h]
      rfl
    | cons p ps =>
      cases as with
      | nil => rfl
      | cons a as =>
        cases a with
        | type t => exact (h₂ p ps t as rfl rfl).elim
        | wild u l => exact (h₁ p ps u l as rfl rfl).elim

/-- Old variables have no slot. -/
theorem slot?_of_le {last i : Nat} (h : i ≤ last) : slot? ps last as i = none := by
  rw [slot?, if_neg (by omega)]

/-- New variables have the slots in order. -/
theorem slot?_add (ps : List TypeVar) (last : Nat) (as : List Arg) (j : Nat) :
    slot? ps last as (last + 1 + j) = (slots ps as)[j]? := by
  rw [slot?, if_pos (by omega), show last + 1 + j - last - 1 = j by omega]

/-- A new variable has a slot. -/
theorem slot?_isSome (hlen : as.length ≤ ps.length) {last i : Nat} (h₁ : last < i)
    (h₂ : i ≤ last + as.countP Arg.isWild) : ∃ slot, slot? ps last as i = some slot := by
  rw [slot?, if_pos h₁]
  have := length_slots hlen
  exact ⟨_, List.getElem?_eq_getElem (by omega)⟩

/-- The slot of a variable is one of the slots, and the variable is new. -/
theorem mem_slots_of_slot? {last i : Nat} {slot : TypeVar × Ty × Ty}
    (h : slot? ps last as i = some slot) : slot ∈ slots ps as ∧ last < i := by
  rw [slot?] at h
  split at h
  · next hi => exact ⟨List.mem_of_getElem? h, hi⟩
  · cases h

/-- Each argument after capture is one of the arguments or the variable of its slot. -/
theorem mem_zip_captureArgs {last : Nat} {p : TypeVar} {t : Ty}
    (h : (p, t) ∈ ps.zip ((captureArgs last as).filterMap Arg.type?)) :
    Arg.type t ∈ as ∨ ∃ j u l, t = .var (.captured (last + 1 + j)) ∧
      (slots ps as)[j]? = some (p, u, l) := by
  induction ps generalizing last as with
  | nil => cases h
  | cons q ps ih =>
    cases as with
    | nil => cases h
    | cons a as =>
      cases a with
      | type t' =>
        rcases List.mem_cons.1 h with h | h
        · injection h with _ ht
          exact .inl (ht ▸ List.mem_cons_self)
        · rcases ih h with h | ⟨j, u, l, ht, hj⟩
          · exact .inl (List.mem_cons_of_mem _ h)
          · exact .inr ⟨j, u, l, ht, hj⟩
      | wild u l =>
        rcases List.mem_cons.1 h with h | h
        · injection h with hp ht
          exact .inr ⟨0, u, l, ht, by rw [hp]; rfl⟩
        · rcases ih h with h | ⟨j, u', l', ht, hj⟩
          · exact .inl (List.mem_cons_of_mem _ h)
          · refine .inr ⟨j + 1, u', l', ?_, hj⟩
            rw [ht]
            congr 2
            omega

/-- An argument after capture is one of the types among the arguments, or a new variable. -/
theorem mem_captureArgs {last : Nat} {c : Arg} (h : c ∈ captureArgs last as) :
    c ∈ as ∧ c.isWild = false ∨
      ∃ j < as.countP Arg.isWild, c = .type (.var (.captured (last + 1 + j))) := by
  induction as generalizing last with
  | nil => cases h
  | cons a as ih =>
    cases a with
    | type t =>
      rw [List.countP_cons_of_neg (by simp [Arg.isWild])]
      rcases List.mem_cons.1 h with rfl | h
      · exact .inl ⟨List.mem_cons_self, rfl⟩
      · exact (ih h).imp (fun h => ⟨List.mem_cons_of_mem _ h.1, h.2⟩) id
    | wild u l =>
      rw [List.countP_cons_of_pos (by rfl)]
      rcases List.mem_cons.1 h with rfl | h
      · exact .inr ⟨0, by omega, rfl⟩
      · rcases ih h with h | ⟨j, hj, rfl⟩
        · exact .inl ⟨List.mem_cons_of_mem _ h.1, h.2⟩
        · refine .inr ⟨j + 1, by omega, ?_⟩
          congr 3
          omega

/-- Each argument after capture beside the argument itself: a type stays, and a wildcard becomes
the variable of its slot. -/
theorem mem_zip_captureArgs_self {last : Nat} {c a : Arg} (hlen : as.length ≤ ps.length)
    (h : (c, a) ∈ (captureArgs last as).zip as) :
    (∃ t, a = .type t ∧ c = .type t) ∨ ∃ p u l j, a = .wild u l ∧
      c = .type (.var (.captured (last + 1 + j))) ∧ (slots ps as)[j]? = some (p, u, l) := by
  induction as generalizing last ps with
  | nil => cases h
  | cons b as ih =>
    cases ps with
    | nil => simp at hlen
    | cons p ps =>
      have hlen' : as.length ≤ ps.length := by simpa using hlen
      cases b with
      | type t =>
        rcases List.mem_cons.1 h with h | h
        · injection h with hc ha
          exact .inl ⟨t, ha, hc⟩
        · exact ih hlen' h
      | wild u l =>
        rcases List.mem_cons.1 h with h | h
        · injection h with hc ha
          exact .inr ⟨p, u, l, 0, ha, hc, rfl⟩
        · rcases ih hlen' h with h | ⟨p', u', l', j, ha, hc, hj⟩
          · exact .inl h
          · refine .inr ⟨p', u', l', j + 1, ha, ?_, hj⟩
            rw [hc]
            congr 3
            omega

/-- Each argument after capture, by its place: a type stays, and a wildcard becomes the variable of its
slot. -/
theorem getElem?_captureArgs (last : Nat) {i : Nat} {p : TypeVar} {a : Arg} (hp : ps[i]? = some p)
    (ha : as[i]? = some a) : (∃ t, a = .type t ∧ (captureArgs last as)[i]? = some (.type t)) ∨
      ∃ u l j, a = .wild u l ∧ (captureArgs last as)[i]? = some (.type (.var (.captured (last + 1 + j)))) ∧
        (slots ps as)[j]? = some (p, u, l) := by
  induction as generalizing last ps i with
  | nil => cases ha
  | cons b as ih =>
    cases ps with
    | nil => cases hp
    | cons q ps =>
      cases i with
      | zero =>
        cases ha
        cases hp
        cases a with
        | type t => exact .inl ⟨t, rfl, rfl⟩
        | wild u l => exact .inr ⟨u, l, 0, rfl, rfl, rfl⟩
      | succ i =>
        rw [List.getElem?_cons_succ] at hp ha
        cases b with
        | type t => exact ih last hp ha
        | wild u l =>
          rcases ih (last + 1) hp ha with h | ⟨u', l', j, ha, hc, hj⟩
          · exact .inl h
          · refine .inr ⟨u', l', j + 1, ha, ?_, hj⟩
            rw [captureArgs, List.getElem?_cons_succ, hc]
            congr 4
            omega

/-- Without wildcards nothing is captured. -/
theorem captureArgs_of_no_wild (h : ∀ a ∈ as, a.isWild = false) {last : Nat} :
    captureArgs last as = as := by
  induction as with
  | nil => rfl
  | cons a as ih =>
    cases a with
    | type t => rw [captureArgs, ih fun b hb => h b (List.mem_cons_of_mem _ hb)]
    | wild u l => cases h _ List.mem_cons_self

/-- Capturing keeps the number of arguments. -/
theorem length_captureArgs (last : Nat) (as : List Arg) :
    (captureArgs last as).length = as.length := by
  induction as generalizing last with
  | nil => rfl
  | cons a as ih => cases a <;> simp [captureArgs, ih]

/-- An argument after capture stands for a type that was given, or it is the variable captured for a wildcard. -/
theorem captureArgs_cases {last i : Nat} {c : Arg} (hlen : as.length = ps.length)
    (hc : (captureArgs last as)[i]? = some c) : ∃ p, ps[i]? = some p ∧
      ((∃ t, as[i]? = some (.type t) ∧ c = .type t) ∨
        ∃ u l x, as[i]? = some (.wild u l) ∧ c = .type (.var (.captured x))) := by
  have hlt := (List.getElem?_eq_some_iff.1 hc).1
  rw [length_captureArgs] at hlt
  have ha := List.getElem?_eq_getElem hlt
  have hp := List.getElem?_eq_getElem (hlen ▸ hlt)
  refine ⟨_, hp, ?_⟩
  rcases getElem?_captureArgs last hp ha with ⟨t, ht, hx⟩ | ⟨u, l, j, hwild, hx, -⟩
  · exact .inl ⟨t, ha.trans (congrArg some ht), Option.some.inj (hc.symm.trans hx)⟩
  · exact .inr ⟨u, l, _, ha.trans (congrArg some hwild), Option.some.inj (hc.symm.trans hx)⟩

end Setting

/-! ### Bounds of captured variables -/

/-- What a meeting of bounds consists of comes from one of the bounds. -/
theorem Ty.mem_conjuncts_meetBounds {site : Site} {a b c : Ty}
    (h : c ∈ (Ty.meetBounds site a b).conjuncts) : c ∈ a.conjuncts ∨ c ∈ b.conjuncts := by
  rw [Ty.meetBounds] at h
  split at h
  · exact .inr h
  · split at h
    · exact .inl h
    · rw [Ty.meet] at h
      split at h
      · cases h
      · rw [Ty.conjuncts] at h
        simpa using h

/-- Each conjunct of two bounds is one of both put together, but for the top declaration. -/
theorem Ty.conjunct_meetBounds_or_isTop (site : Site) {a b c : Ty}
    (h : c ∈ a.conjuncts ∨ c ∈ b.conjuncts) : c ∈ (Ty.meetBounds site a b).conjuncts ∨ c.isTop = true := by
  have htop : ∀ {t : Ty}, t.isTop = true → c ∈ t.conjuncts → c.isTop = true := by
    intro t ht hc
    cases t with
    | inter st ms =>
      cases ms with
      | nil => cases hc
      | cons => cases ht
    | _ => exact List.mem_singleton.1 hc ▸ ht
  rw [Ty.meetBounds]
  split
  · next ha => exact h.elim (fun hc => .inr (htop ha hc)) .inl
  · split
    · next hb => exact h.elim .inl fun hc => .inr (htop hb hc)
    · have hmem : c ∈ [a, b].flatMap Ty.conjuncts := by
        simpa only [List.flatMap_cons, List.flatMap_nil, List.append_nil, List.mem_append] using h
      rw [Ty.meet]
      split
      · next hnil => rw [hnil] at hmem; cases hmem
      · exact .inl hmem

/-- The variables of a meeting of bounds come from one of the bounds. -/
theorem Ty.mem_vars_meetBounds {site : Site} {a b : Ty} {v : Var}
    (h : v ∈ (Ty.meetBounds site a b).vars) : v ∈ a.vars ∨ v ∈ b.vars := by
  rw [← Ty.varsAll_conjuncts, Ty.mem_varsAll] at h
  obtain ⟨c, hc, hv⟩ := h
  rw [← Ty.varsAll_conjuncts a, ← Ty.varsAll_conjuncts b, Ty.mem_varsAll, Ty.mem_varsAll]
  rcases Ty.mem_conjuncts_meetBounds hc with hc | hc
  · exact .inl ⟨c, hc, hv⟩
  · exact .inr ⟨c, hc, hv⟩

/-- The meeting of shapes is a shape. -/
theorem Ty.shape_meetBounds {a b : Ty} (ha : a.shape = a) (hb : b.shape = b) :
    (Ty.meetBounds .common a b).shape = Ty.meetBounds .common a b := by
  rw [Ty.meetBounds]
  split
  · exact hb
  · split
    · exact ha
    · have hparts : Ty.rebuildParts .var [a, b] = [a, b].flatMap Ty.conjuncts := by
        have ha' : a.rebuild .var = a := ha
        have hb' : b.rebuild .var = b := hb
        rw [Ty.rebuildParts_eq_flatMap]
        simp only [List.flatMap_cons, List.flatMap_nil, ha', hb']
      rw [Ty.shape, Ty.rebuild_meet, hparts, Ty.meet]
      split
      · next h => rw [h]; rfl
      · rfl

namespace Scope

variable {s : Setting} {k : Fragment} {Γ : Scope} {C : Nat → Prop} {decl : String} {l : Lineage}
  {as : List Arg}

/-- Capturing keeps the upper bounds of old variables. -/
theorem capture_upper_of_le {i : Nat} (h : i ≤ Γ.last) :
    (Γ.capture s decl as).upper i = Γ.upper i := by
  simp only [capture, Setting.slot?_of_le h]

/-- Capturing keeps the lower bounds of old variables. -/
theorem capture_lower_of_le {i : Nat} (h : i ≤ Γ.last) :
    (Γ.capture s decl as).lower i = Γ.lower i := by
  simp only [capture, Setting.slot?_of_le h]

/-- **Capturing keeps the bounds there were.** -/
theorem le_capture (s : Setting) (Γ : Scope) (decl : String) (as : List Arg) :
    Γ.Le (Γ.capture s decl as) where
  last := Nat.le_add_right _ _
  upper _ h := capture_upper_of_le h
  lower _ h := capture_lower_of_le h

/-- The upper bound of a new variable is that of its slot. -/
theorem capture_upper {i : Nat} {slot : TypeVar × Ty × Ty}
    (h : Setting.slot? (s.paramsOf decl) Γ.last as i = some slot) :
    (Γ.capture s decl as).upper i =
      s.capturedUpper (Setting.capturedImage (s.paramsOf decl) Γ.last as) slot := by
  simp only [capture, h]

/-- The lower bound of a new variable is that of its wildcard. -/
theorem capture_lower {i : Nat} {slot : TypeVar × Ty × Ty}
    (h : Setting.slot? (s.paramsOf decl) Γ.last as i = some slot) :
    (Γ.capture s decl as).lower i = slot.2.2.shape := by
  simp only [capture, h]

/-- Without wildcards nothing is captured. -/
theorem capture_of_no_wild (h : ∀ a ∈ as, a.isWild = false) : Γ.capture s decl as = Γ := by
  have hslot : ∀ i, Setting.slot? (s.paramsOf decl) Γ.last as i = none := by
    intro i
    cases hi : Setting.slot? (s.paramsOf decl) Γ.last as i with
    | none => rfl
    | some slot =>
      have := h _ (Setting.mem_slots (Setting.mem_slots_of_slot? hi).1).2
      cases this
  have hcount : as.countP Arg.isWild = 0 := List.countP_eq_zero.2 fun a ha => by simp [h a ha]
  simp only [capture, hslot, hcount, Nat.add_zero]

end Scope

/-- The declaration can be applied to the arguments, which are regular. -/
structure Setting.Takes (s : Setting) (k : Fragment) (decl : String) (l : Lineage)
    (as : List Arg) : Prop where
  lineage : s.lineageOf decl = some l
  count : as = [] ∨ as.length = l.params.length
  regular : ∀ a ∈ as, a.Regular s k

/-- The declaration can be applied to the arguments, which are regular and mention only the given
variables. -/
structure Setting.Suits (s : Setting) (k : Fragment) (C : Nat → Prop) (decl : String) (l : Lineage)
    (as : List Arg) : Prop extends s.Takes k decl l as where
  argsOver : ∀ a ∈ as, ∀ v ∈ a.vars, ∃ i, v = .captured i ∧ C i

namespace Setting

variable {s : Setting} {k : Fragment} {Γ : Scope} {C : Nat → Prop} {decl : String} {l : Lineage}
  {as : List Arg}

/-- There are no more arguments than parameters. -/
theorem Takes.length_le (h : s.Takes k decl l as) : as.length ≤ (s.paramsOf decl).length := by
  rw [paramsOf_eq h.lineage]
  rcases h.count with h | h
  · simp [h]
  · exact Nat.le_of_eq h

/-- Slots occur in the full fragment only, and their bounds are regular. -/
theorem Takes.of_slot (h : s.Takes k decl l as) {slot : TypeVar × Ty × Ty}
    (hslot : slot ∈ slots (s.paramsOf decl) as) :
    k = .full ∧ slot.1 ∈ l.params ∧ slot.2.1.Regular s k ∧ slot.2.2.Regular s k ∧
      as.length = l.params.length := by
  obtain ⟨hp, ha⟩ := mem_slots hslot
  have hr := h.regular _ ha
  rw [Arg.Regular] at hr
  rw [paramsOf_eq h.lineage] at hp
  refine ⟨hr.1, hp, hr.2.1, hr.2.2, ?_⟩
  rcases h.count with h | h
  · rw [h] at ha; cases ha
  · exact h

/-- The bounds of slots mention the given variables only. -/
theorem Suits.over_slot (h : s.Suits k C decl l as) {slot : TypeVar × Ty × Ty}
    (hslot : slot ∈ slots (s.paramsOf decl) as) : slot.2.1.Over C ∧ slot.2.2.Over C := by
  have ho := h.argsOver _ (mem_slots hslot).2
  simp only [Arg.vars, List.mem_append] at ho
  exact ⟨fun v hv => ho v (.inl hv), fun v hv => ho v (.inr hv)⟩

/-- After capturing all arguments are types. -/
theorem length_captured_types (last : Nat) (as : List Arg) :
    ((captureArgs last as).filterMap Arg.type?).length = as.length := by
  induction as generalizing last with
  | nil => rfl
  | cons a as ih => cases a <;> simp [captureArgs, Arg.type?, ih]

/-- What takes the place of a parameter is an argument or a new variable. -/
theorem capturedImage_cases (ps : List TypeVar) (as : List Arg) (hlen : as.length = ps.length)
    (last : Nat) {q : TypeVar} (hq : q ∈ ps) :
    ∃ w t, (w, t) ∈ ps.zip ((captureArgs last as).filterMap Arg.type?) ∧
      capturedImage ps last as (.declared q) = t.shape ∧
      (ps.reverse.find? (fun r => r.key == q.key) = some q → w = q) := by
  have hle : ps.length ≤ ((captureArgs last as).filterMap Arg.type?).length := by
    exact Nat.le_of_eq (by rw [length_captured_types, hlen])
  obtain ⟨t, ht⟩ := Option.isSome_iff_exists.1 (Subst.lookup_zip_isSome hle hq)
  have himage : capturedImage ps last as (.declared q) = t.shape := by
    rw [capturedImage, Subst.image, ht]
    rfl
  by_cases hres : ps.reverse.find? (fun r => r.key == q.key) = some q
  · exact ⟨q, t, Subst.mem_zip_of_last hle hres ht, himage, fun _ => rfl⟩
  · obtain ⟨w, hw, _⟩ := Subst.mem_zip_of_lookup ht
    exact ⟨w, t, hw, himage, fun h => absurd h hres⟩

end Setting

namespace Scope

variable {s : Setting} {k : Fragment} {Γ : Scope} {C : Nat → Prop} {decl : String} {l : Lineage}
  {as : List Arg}

/-- The variable was captured between two scopes. -/
def New (Γ Δ : Scope) (v : Var) : Prop := ∃ i, v = .captured i ∧ Γ.last < i ∧ i ≤ Δ.last

/-- New variables are among the widened ones. -/
theorem New.widen {Δ : Scope} {v : Var} (h : New Γ Δ v) :
    ∃ i, v = .captured i ∧ Scope.widen C Γ Δ i := by
  obtain ⟨i, hi, hlt, hle⟩ := h
  exact ⟨i, hi, .inr ⟨hlt, hle⟩⟩

/-- The variables of captured arguments occur in the arguments, or are new. -/
theorem vars_captureArgs (s : Setting) (Γ : Scope) (decl : String) {as : List Arg} {c : Arg}
    (hc : c ∈ Setting.captureArgs Γ.last as) {v : Var} (hv : v ∈ c.vars) :
    (∃ a ∈ as, v ∈ a.vars) ∨ New Γ (Γ.capture s decl as) v := by
  rcases Setting.mem_captureArgs hc with ⟨hc, _⟩ | ⟨j, hj, rfl⟩
  · exact .inl ⟨c, hc, hv⟩
  · rw [Arg.vars, Ty.vars, List.mem_singleton] at hv
    exact .inr ⟨_, hv, by omega, show _ ≤ Γ.last + _ by omega⟩

/-- What takes the place of a parameter is regular, and its variables occur in the arguments, or
are new. -/
theorem vars_capturedImage (h : s.Takes k decl l as) (hlen : as.length = l.params.length)
    {q : TypeVar} (hq : q ∈ l.params) :
    (Setting.capturedImage (s.paramsOf decl) Γ.last as (.declared q)).Regular s k ∧
      ∀ v ∈ (Setting.capturedImage (s.paramsOf decl) Γ.last as (.declared q)).vars,
        (∃ a ∈ as, v ∈ a.vars) ∨ New Γ (Γ.capture s decl as) v := by
  have hps := Setting.paramsOf_eq h.lineage
  obtain ⟨w, t, hmem, himage, _⟩ := Setting.capturedImage_cases
    (s.paramsOf decl) as (by rw [hps, hlen]) Γ.last (by rwa [hps])
  rw [himage, Ty.vars_shape]
  rcases Setting.mem_zip_captureArgs hmem with ht | ⟨j, u, l', rfl, hj⟩
  · have hr := h.regular _ ht
    rw [Arg.Regular] at hr
    exact ⟨hr.shape, fun v hv => .inl ⟨_, ht, hv⟩⟩
  · refine ⟨by rw [Ty.shape_var, Ty.Regular]; trivial, fun v hv => .inr ?_⟩
    rw [Ty.vars, List.mem_singleton] at hv
    have hlt := (List.getElem?_eq_some_iff.1 hj).1
    rw [Setting.length_slots h.length_le] at hlt
    exact ⟨_, hv, by omega, show _ ≤ Γ.last + _ by omega⟩

/-- What takes the place of a parameter is over the old and the new variables. -/
theorem over_capturedImage (h : s.Suits k C decl l as) (hlen : as.length = l.params.length)
    {q : TypeVar} (hq : q ∈ l.params) :
    (Setting.capturedImage (s.paramsOf decl) Γ.last as (.declared q)).Over
      (widen C Γ (Γ.capture s decl as)) := by
  intro v hv
  rcases (vars_capturedImage h.toTakes hlen hq).2 v hv with ⟨a, ha, hv⟩ | hnew
  · obtain ⟨i, hi, hC⟩ := h.argsOver a ha v hv
    exact ⟨i, hi, .inl hC⟩
  · exact hnew.widen

/-- **The bounds of new variables** are regular, and their variables occur in the arguments, or
are new. -/
theorem capture_new (hs : s.Regular k) (h : s.Takes k decl l as) {i : Nat} (hi : Γ.last < i)
    (hle : i ≤ (Γ.capture s decl as).last) :
    (((Γ.capture s decl as).upper i).Regular s k ∧ ((Γ.capture s decl as).lower i).Regular s k) ∧
      (∀ v ∈ ((Γ.capture s decl as).upper i).vars,
        (∃ a ∈ as, v ∈ a.vars) ∨ New Γ (Γ.capture s decl as) v) ∧
      ∀ v ∈ ((Γ.capture s decl as).lower i).vars, ∃ a ∈ as, v ∈ a.vars := by
  obtain ⟨slot, hslot⟩ := Setting.slot?_isSome h.length_le hi hle
  have hmem := (Setting.mem_slots_of_slot? hslot).1
  obtain ⟨hk, hp, hu, hl, hlen⟩ := h.of_slot hmem
  obtain ⟨hreg, hvars⟩ := hs.bounds decl l h.lineage _ hp
  have hwild := (Setting.mem_slots hmem).2
  rw [capture_upper hslot, capture_lower hslot, Ty.vars_shape]
  refine ⟨⟨Ty.Regular.meetBounds hk hu.shape (hreg.rebuild fun v hv => ?_), hl.shape⟩,
    fun v hv => ?_, fun v hv => ⟨_, hwild, by simp [Arg.vars, hv]⟩⟩
  · obtain ⟨q, hq, rfl⟩ := hvars v hv
    exact (vars_capturedImage h hlen hq).1
  · rcases Ty.mem_vars_meetBounds hv with hv | hv
    · rw [Ty.vars_shape] at hv
      exact .inl ⟨_, hwild, by simp [Arg.vars, hv]⟩
    · obtain ⟨w, hw, hv⟩ := Ty.mem_vars_rebuild.1 hv
      obtain ⟨q, hq, rfl⟩ := hvars w hw
      exact (vars_capturedImage h hlen hq).2 v hv

/-- A variable that stands bare in the bound of a new one is an old one, or a new one whose
parameter stands bare in the bound of the parameter. -/
theorem bare_capturedUpper (hs : s.Regular k) (h : s.Suits k C decl l as)
    {slot : TypeVar × Ty × Ty} (hslot : slot ∈ Setting.slots (s.paramsOf decl) as) {i : Nat}
    (hi : Ty.var (.captured i) ∈
      (s.capturedUpper (Setting.capturedImage (s.paramsOf decl) Γ.last as) slot).conjuncts) :
    C i ∨ ∃ j q u l', i = Γ.last + 1 + j ∧ s.BareBound q slot.1 ∧
      (Setting.slots (s.paramsOf decl) as)[j]? = some (q, u, l') := by
  obtain ⟨rfl, hp, _, _, hlen⟩ := h.of_slot hslot
  have hu := (h.over_slot hslot).1
  have hps := Setting.paramsOf_eq h.lineage
  rcases Ty.mem_conjuncts_meetBounds hi with hi | hi
  · exact .inl (hu.shape.of_mem_conjuncts hi)
  · obtain ⟨hreg, hvars⟩ := hs.bounds decl l h.lineage _ hp
    rw [Ty.conjuncts_rebuild, Ty.rebuildParts_eq_flatMap] at hi
    obtain ⟨c, hc, hi⟩ := List.mem_flatMap.1 hi
    have hflat := Ty.isInter_eq_false_of_mem_conjuncts hreg hc
    -- a member that is no variable stays what it is
    cases c with
    | var v =>
      obtain ⟨q, hq, rfl⟩ := hvars v (Ty.mem_vars_of_mem_conjuncts hc)
      have hres := hs.resolved rfl decl l h.lineage _ hp q hc
      obtain ⟨w, t, hmem, himage, hw⟩ := Setting.capturedImage_cases
        (s.paramsOf decl) as (by rw [hps, hlen]) Γ.last (q := q) (by rwa [hps])
      obtain rfl := hw (by rwa [hps])
      rw [Ty.rebuild, himage] at hi
      rcases Setting.mem_zip_captureArgs hmem with ht | ⟨j, u, l', rfl, hj⟩
      · have ho := h.argsOver _ ht
        rw [Arg.vars] at ho
        exact .inl (Ty.Over.of_mem_conjuncts (Ty.Over.shape ho) hi)
      · rw [Ty.shape_var, Ty.conjuncts, List.mem_singleton] at hi
        · injection hi with hi
          injection hi with hi
          exact .inr ⟨j, w, u, l', hi, hc, hj⟩
        · intro _ _ h'
          cases h'
    | inter st ms => cases hflat.1
    | prim p => simp [Ty.rebuild, Ty.conjuncts] at hi
    | null => simp [Ty.rebuild, Ty.conjuncts] at hi
    | nominal st d as' => simp [Ty.rebuild, Ty.conjuncts] at hi
    | array e => simp [Ty.rebuild, Ty.conjuncts] at hi

/-- **Capturing keeps a scope in order**, on the old and the new variables. -/
theorem Sound.capture (hs : s.Regular k) (hΓ : Γ.Sound s k C) (h : s.Suits k C decl l as) :
    (Γ.capture s decl as).Sound s k (widen C Γ (Γ.capture s decl as)) := by
  have hold : ∀ i, C i → (Γ.capture s decl as).upper i = Γ.upper i ∧
      (Γ.capture s decl as).lower i = Γ.lower i :=
    (le_capture s Γ decl as).agree hΓ.le_last
  have hsound := hΓ.mono (le_capture s Γ decl as)
  have hps := Setting.paramsOf_eq h.lineage
  refine ⟨?_, ?_, ?_, ?_, ?_⟩
  · rintro i (hi | hi)
    · exact hsound.le_last i hi
    · exact hi.2
  · rintro i (hi | ⟨hi, hle⟩)
    · exact hsound.shaped i hi
    · obtain ⟨slot, hslot⟩ := Setting.slot?_isSome h.length_le hi hle
      rw [capture_upper hslot, capture_lower hslot]
      exact ⟨Ty.shape_meetBounds (Ty.shape_shape _) (Ty.shape_rebuild (Subst.siteless_image _) _),
        Ty.shape_shape _⟩
  · rintro i (hi | ⟨hi, hle⟩)
    · exact hsound.regular i hi
    · exact (capture_new hs h.toTakes hi hle).1
  · have harg : ∀ v, (∃ a ∈ as, v ∈ a.vars) →
        ∃ i, v = .captured i ∧ widen C Γ (Γ.capture s decl as) i := by
      rintro v ⟨a, ha, hv⟩
      obtain ⟨i, hi, hC⟩ := h.argsOver a ha v hv
      exact ⟨i, hi, .inl hC⟩
    rintro i (hi | ⟨hi, hle⟩)
    · have := hsound.closed i hi
      exact ⟨this.1.mono fun _ => .inl, this.2.mono fun _ => .inl⟩
    · obtain ⟨_, hu, hl⟩ := capture_new hs h.toTakes hi hle
      exact ⟨fun v hv => (hu v hv).elim (harg v) New.widen, fun v hv => harg v (hl v hv)⟩
  · have hnew : ∀ p, Acc s.BareBound p → ∀ j u l',
        (Setting.slots (s.paramsOf decl) as)[j]? = some (p, u, l') →
          Acc (Γ.capture s decl as).Bare (Γ.last + 1 + j) := by
      intro p hp
      -- along the bounds of the parameters
      induction hp with
      | intro p _ ih =>
        intro j u l' hj
        have hslot : Setting.slot? (s.paramsOf decl) Γ.last as (Γ.last + 1 + j) = some (p, u, l') :=
          (Setting.slot?_add ..).trans hj
        have hmem := (Setting.mem_slots_of_slot? hslot).1
        refine ⟨_, fun i hi => ?_⟩
        rw [Bare, capture_upper hslot, capture_lower hslot] at hi
        rcases hi with hi | hi
        · rcases bare_capturedUpper hs h hmem hi with hC | ⟨j', q, u', l'', rfl, hbare, hj'⟩
          · exact hsound.ranked i hC
          · exact ih q hbare j' u' l'' hj'
        · have hl := (h.over_slot hmem).2
          exact hsound.ranked i (hl.shape.of_mem_conjuncts hi)
    rintro i (hi | ⟨hi, hle⟩)
    · exact hsound.ranked i hi
    · obtain ⟨⟨p, u, l'⟩, hslot⟩ := Setting.slot?_isSome h.length_le hi hle
      obtain ⟨hk, hp, _⟩ := h.of_slot (Setting.mem_slots_of_slot? hslot).1
      obtain ⟨j, rfl⟩ : ∃ j, i = Γ.last + 1 + j := ⟨i - Γ.last - 1, by omega⟩
      rw [Setting.slot?_add] at hslot
      exact hnew p (hs.ranked hk decl l h.lineage p hp) j u l' hslot

end Scope
end Generics
