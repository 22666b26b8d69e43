/-
# Questions that replace, capture and climb

What the questions below subtyping and inference answer, in terms of shapes:

| question | answer | memory |
| --- | --- | --- |
| `replace` | the type rebuilt with the substitution | captured variables stay |
| `capture` | the arguments captured | the scope is captured (`Setting.capture_answers`) |
| `climb` | what `Setting.SeenAs` relates to it | captured variables stay |

`replace` and `capture` answer always, `climb` answers where the way up visits no declaration twice
(`Setting.climb_total`), as it does where inheritance has no cycle.
-/

import Generics.Proofs.Realizations

namespace Generics

/-- The second memory is faithful and has captured the same variables. -/
structure Memory.Stays (s : Setting) (m m' : Memory) : Prop where
  faithful : m'.Faithful s
  keeps : m.Keeps m'

/-- A faithful memory stays as it is. -/
theorem Memory.Stays.refl {s : Setting} {m : Memory} (h : m.Faithful s) : m.Stays s m := ⟨h, .refl m⟩

/-- What stays twice stays. -/
theorem Memory.Stays.trans {s : Setting} {m₁ m₂ m₃ : Memory} (h₁ : m₁.Stays s m₂)
    (h₂ : m₂.Stays s m₃) : m₁.Stays s m₃ := ⟨h₂.faithful, h₁.keeps.trans h₂.keeps⟩

/-- The bounds of captured variables whose shapes are regular are regular: intersections in them
are flat. -/
def Memory.Tame (s : Setting) (k : Fragment) (m : Memory) : Prop :=
  ∀ i, ((m.upper i).shape.Regular s k → (m.upper i).Regular s k) ∧
    ((m.lower i).shape.Regular s k → (m.lower i).Regular s k)

/-- In the empty memory no bounds are captured. -/
theorem Memory.tame_empty (s : Setting) (k : Fragment) : ({} : Memory).Tame s k :=
  fun _ => ⟨id, id⟩

/-- A memory stays tame if no more is captured. -/
theorem Memory.Keeps.tame {s : Setting} {k : Fragment} {m m' : Memory} (h : m.Keeps m')
    (hm : m.Tame s k) : m'.Tame s k := by
  intro i
  simpa only [Memory.upper, Memory.lower, Memory.captured?, h.captured] using hm i

/-- The second memory is faithful, and its scope is larger. -/
structure Memory.Grows (s : Setting) (k : Fragment) (m m' : Memory) : Prop where
  faithful : m'.Faithful s
  le : m.scope.Le m'.scope
  tame : m.Tame s k → m'.Tame s k

/-- A faithful memory has grown out of itself. -/
theorem Memory.Grows.refl {s : Setting} {k : Fragment} {m : Memory} (h : m.Faithful s) :
    m.Grows s k m := ⟨h, .refl _, id⟩

/-- What has grown twice has grown. -/
theorem Memory.Grows.trans {s : Setting} {k : Fragment} {m₁ m₂ m₃ : Memory}
    (h₁ : m₁.Grows s k m₂) (h₂ : m₂.Grows s k m₃) : m₁.Grows s k m₃ :=
  ⟨h₂.faithful, h₁.le.trans h₂.le, fun h => h₂.tame (h₁.tame h)⟩

/-- A memory that stays has grown. -/
theorem Memory.Stays.grows {s : Setting} (k : Fragment) {m m' : Memory} (h : m.Stays s m') :
    m.Grows s k m' :=
  ⟨h.faithful, by rw [h.keeps.scope_eq]; exact .refl _, h.keeps.tame⟩

namespace Query

/-- An answer of a steady question is the one it settles on, and captured variables stay. -/
theorem Steady.stays {α : Type} {s : Setting} {q : Query α} {a : α} {m m' : Memory}
    (h : Steady s q) (hm : m.Faithful s) (ha : q.Answers m a m') :
    Settles s q (.ok a) ∧ m.Stays s m' := by
  obtain ⟨hs, hf, hl⟩ := h.settles hm ha
  exact ⟨hs, hf, hl.keeps⟩

/-- A question that settles on an answer answers it, and captured variables stay. -/
theorem Settles.stays {α : Type} {s : Setting} {q : Query α} {a : α} {m : Memory}
    (h : Settles s q (.ok a)) (hm : m.Faithful s) : ∃ m', q.Answers m a m' ∧ m.Stays s m' := by
  obtain ⟨m', ha, hf, hl⟩ := h.answers hm
  exact ⟨m', ha, hf, hl.keeps⟩

end Query

/-! ### Replacing -/

/-- The second type is the first one with variables replaced, up to sites. -/
structure Ty.Replaced (σ : Subst) (t t' : Ty) : Prop where
  shape : t'.shape = t.rebuild σ.image
  regular : ∀ s k, t.Regular s k → (∀ v ∈ t.vars, ∀ u, σ.lookup v = some u → u.Regular s k) →
    t'.Regular s k

/-- The second memory differs from the first one in the number of types built only. -/
def Memory.Builds (m m' : Memory) : Prop := ∃ n, m' = { m with built := n }

/-- Substituting replaces variables. -/
theorem Ty.replaced_subst (σ : Subst) (site : Site) (t : Ty) : Ty.Replaced σ t (t.subst σ site) :=
  ⟨Ty.shape_subst σ site t, fun _ _ h hσ => h.subst σ site hσ⟩

/-- The empty substitution replaces nothing. -/
theorem Ty.replaced_of_empty {σ : Subst} (h : σ.entries = []) (t : Ty) : Ty.Replaced σ t t := by
  refine ⟨Ty.rebuild_congr fun v _ => ?_, fun _ _ h _ => h⟩
  rw [Subst.image, Subst.lookup, h]
  rfl

namespace Memory.Builds

variable {s : Setting} {m m₁ m₂ : Memory}

/-- Building nothing is building. -/
theorem refl (m : Memory) : m.Builds m := ⟨m.built, rfl⟩

/-- What was built twice was built. -/
theorem trans (h₁ : m.Builds m₁) (h₂ : m₁.Builds m₂) : m.Builds m₂ := by
  obtain ⟨n₁, rfl⟩ := h₁
  obtain ⟨n₂, rfl⟩ := h₂
  exact ⟨n₂, rfl⟩

/-- Building leaves a memory as it stays. -/
theorem stays (h : m.Builds m₁) (hm : m.Faithful s) : m.Stays s m₁ := by
  obtain ⟨n, rfl⟩ := h
  exact ⟨hm, rfl, rfl⟩

end Memory.Builds

namespace Query

variable {s : Setting} {m m' : Memory} {σ : Subst}

/-- **Replacing in a type answers the replaced type**, and nothing if it stays as it is. -/
theorem replace?_builds {t : Ty} {r : Option Ty} (h : (replace? σ t).Answers m r m') :
    Ty.Replaced σ t (r.getD t) ∧ m.Builds m' := by
  unfold replace? at h
  split at h
  · next he =>
    obtain ⟨rfl, rfl⟩ := answers_pure.1 h
    exact ⟨Ty.replaced_of_empty (List.isEmpty_iff.1 he) t, .refl m'⟩
  · obtain ⟨m₀, m₁, hget, hrest⟩ := answers_bind.1 h
    obtain ⟨rfl, rfl⟩ := answers_get.1 hget
    have hsub := Ty.replaced_subst σ (nextSite m₁) t
    rw [Ty.subst] at hsub
    cases hs : t.subst? σ (nextSite m₁) with
    | none =>
      rw [hs] at hrest hsub
      obtain ⟨rfl, rfl⟩ := answers_pure.1 hrest
      exact ⟨hsub, .refl _⟩
    | some t' =>
      rw [hs] at hrest hsub
      obtain ⟨_, m₂, hnote, hpure⟩ := answers_bind.1 hrest
      obtain rfl := answers_modify.1 hnote
      obtain ⟨rfl, rfl⟩ := answers_pure.1 hpure
      exact ⟨hsub, _, rfl⟩

/-- Replacing answers the replaced type, or nothing if it is the same. -/
theorem replace?_answers {t : Ty} {r : Option Ty} (hm : m.Faithful s)
    (h : (replace? σ t).Answers m r m') : Ty.Replaced σ t (r.getD t) ∧ m.Stays s m' :=
  (replace?_builds h).imp_right fun hbuilds => hbuilds.stays hm

/-- Replacing always answers. -/
theorem replace?_total (σ : Subst) (t : Ty) (m : Memory) :
    ∃ r m', (replace? σ t).Answers m r m' := by
  unfold replace?
  split
  · exact ⟨_, _, answers_pure.2 ⟨rfl, rfl⟩⟩
  · cases hs : t.subst? σ (nextSite m) with
    | none =>
      refine ⟨none, m, answers_bind.2 ⟨m, m, answers_get.2 ⟨rfl, rfl⟩, ?_⟩⟩
      rw [hs]
      exact answers_pure.2 ⟨rfl, rfl⟩
    | some t' =>
      refine ⟨some t', { m with built := m.built + 1 }, answers_bind.2 ⟨m, m, answers_get.2 ⟨rfl, rfl⟩, ?_⟩⟩
      rw [hs]
      exact answers_bind.2 ⟨(), _, answers_modify.2 rfl, answers_pure.2 ⟨rfl, rfl⟩⟩

/-- Replacing always gives the replaced type. -/
theorem replace_answers {t t' : Ty} (hm : m.Faithful s) (h : (replace σ t).Answers m t' m') :
    Ty.Replaced σ t t' ∧ m.Stays s m' := by
  obtain ⟨r, m₁, hr, h⟩ := answers_bind.1 h
  obtain ⟨rfl, rfl⟩ := answers_pure.1 h
  exact replace?_answers hm hr

/-- Replacing never fails. -/
theorem replace_total (σ : Subst) (t : Ty) (m : Memory) :
    ∃ t' m', (replace σ t).Answers m t' m' := by
  obtain ⟨r, m', hr⟩ := replace?_total σ t m
  exact ⟨_, m', answers_bind.2 ⟨r, m', hr, answers_pure.2 ⟨rfl, rfl⟩⟩⟩

/-- An applied declaration is substituted as a type is. -/
theorem subst?_toTy (n : Nominal) (site : Site) :
    n.toTy.subst? σ site = (n.subst? σ site).map Nominal.toTy := by
  rw [Nominal.toTy, Ty.subst?, Nominal.subst?, Option.map_map]
  rfl

/-- **Replacing in an applied declaration answers the declaration after substitution.** -/
theorem replaceIn_subst {n n' : Nominal} (h : (replaceIn σ n).Answers m n' m') :
    (∃ site, n'.toTy = n.toTy.subst σ site) ∧ n'.decl = n.decl ∧ m.Builds m' := by
  obtain ⟨m₀, m₁, hget, hrest⟩ := answers_bind.1 h
  obtain ⟨rfl, rfl⟩ := answers_get.1 hget
  have hsub : n.toTy.subst σ (nextSite m₁) =
      ((n.subst? σ (nextSite m₁)).map Nominal.toTy).getD n.toTy := by rw [Ty.subst, subst?_toTy]
  cases hs : n.subst? σ (nextSite m₁) with
  | none =>
    rw [hs] at hrest hsub
    obtain ⟨rfl, rfl⟩ := answers_pure.1 hrest
    exact ⟨⟨_, hsub.symm⟩, rfl, .refl _⟩
  | some n₁ =>
    rw [hs] at hrest hsub
    obtain ⟨_, m₂, hnote, hpure⟩ := answers_bind.1 hrest
    obtain rfl := answers_modify.1 hnote
    obtain ⟨rfl, rfl⟩ := answers_pure.1 hpure
    refine ⟨⟨_, hsub.symm⟩, ?_, _, rfl⟩
    obtain ⟨args, _, rfl⟩ := Option.map_eq_some_iff.1 hs
    rfl

/-- Replacing in arguments replaces in the type, keeps the declaration, and only builds. -/
theorem replaceIn_builds {n n' : Nominal} (h : (replaceIn σ n).Answers m n' m') :
    Ty.Replaced σ n.toTy n'.toTy ∧ n'.decl = n.decl ∧ m.Builds m' := by
  obtain ⟨⟨site, hsub⟩, hrest⟩ := replaceIn_subst h
  exact ⟨hsub ▸ Ty.replaced_subst σ site n.toTy, hrest⟩

/-- Replacing in arguments answers the replaced type, and the memory stays. -/
theorem replaceIn_answers {n n' : Nominal} (hm : m.Faithful s)
    (h : (replaceIn σ n).Answers m n' m') :
    Ty.Replaced σ n.toTy n'.toTy ∧ n'.decl = n.decl ∧ m.Stays s m' :=
  (replaceIn_builds h).imp_right fun hrest => hrest.imp_right fun hbuilds => hbuilds.stays hm

/-- Replacing in arguments never fails. -/
theorem replaceIn_total (σ : Subst) (n : Nominal) (m : Memory) :
    ∃ n' m', (replaceIn σ n).Answers m n' m' := by
  unfold replaceIn
  cases hs : n.subst? σ (nextSite m) with
  | none =>
    refine ⟨n, m, answers_bind.2 ⟨m, m, answers_get.2 ⟨rfl, rfl⟩, ?_⟩⟩
    rw [hs]
    exact answers_pure.2 ⟨rfl, rfl⟩
  | some n' =>
    refine ⟨n', { m with built := m.built + 1 }, answers_bind.2 ⟨m, m, answers_get.2 ⟨rfl, rfl⟩, ?_⟩⟩
    rw [hs]
    exact answers_bind.2 ⟨(), _, answers_modify.2 rfl, answers_pure.2 ⟨rfl, rfl⟩⟩

end Query

/-! ### Capturing -/

/-- Variables numbered one after another are found by their number. -/
theorem find?_reverse_captured {cs : List Captured} {last : Nat}
    (hid : ∀ j c, cs[j]? = some c → c.id = last + 1 + j) (i : Nat) :
    cs.reverse.find? (fun c => c.id == i) = if last < i then cs[i - last - 1]? else none := by
  induction cs generalizing last with
  | nil => simp
  | cons c cs ih =>
    have hc : c.id = last + 1 := hid 0 c rfl
    have htail : ∀ j c, cs[j]? = some c → c.id = last + 1 + 1 + j := by
      intro j c' hj
      have := hid (j + 1) c' hj
      omega
    rw [List.reverse_cons, List.find?_append, ih htail]
    by_cases h₁ : last + 1 < i
    · have hne : ¬ c.id = i := by omega
      obtain ⟨j, rfl⟩ : ∃ j, i = last + 1 + 1 + j := ⟨i - last - 1 - 1, by omega⟩
      rw [if_pos h₁, if_pos (by omega), show last + 1 + 1 + j - (last + 1) - 1 = j by omega,
        show last + 1 + 1 + j - last - 1 = j + 1 by omega, List.getElem?_cons_succ]
      simp [hne]
    · rw [if_neg h₁]
      by_cases h₂ : last < i
      · obtain rfl : i = last + 1 := by omega
        rw [if_pos h₂, show last + 1 - last - 1 = 0 by omega, List.getElem?_cons_zero]
        simp [hc]
      · have hne : ¬ c.id = i := by omega
        rw [if_neg h₂]
        simp [hne]

/-- Whether a regular type is the top one is a matter of its shape. -/
theorem Ty.isTop_shape {s : Setting} {k : Fragment} {t : Ty} (h : t.Regular s k) :
    t.shape.isTop = t.isTop := by
  cases t with
  | nominal st d as => cases as <;> rfl
  | inter st ms =>
    rw [Ty.shape_inter h]
    cases ms <;> rfl
  | _ => rfl

/-- The conjuncts of the shape of a regular type are the shapes of its conjuncts. -/
theorem Ty.conjuncts_shape {s : Setting} {k : Fragment} {t : Ty} (h : t.Regular s k) :
    t.shape.conjuncts = t.conjuncts.map Ty.shape := by
  cases t with
  | inter st ms => rw [Ty.shape_inter h]; rfl
  | _ => rfl

/-- The bound of a captured variable has the bound of its shapes as its shape. -/
theorem Ty.shape_meetBounds_of {s : Setting} {k : Fragment} {site : Site} {a b : Ty}
    (ha : a.Regular s k) (hb : b.Regular s k) :
    (Ty.meetBounds site a b).shape = Ty.meetBounds .common a.shape b.shape := by
  rw [Ty.meetBounds, Ty.meetBounds, Ty.isTop_shape ha, Ty.isTop_shape hb]
  split
  · rfl
  · split
    · rfl
    · rw [Ty.shape, Ty.rebuild_meet, Ty.meet]
      have hparts : Ty.rebuildParts .var [a, b] = [a.shape, b.shape].flatMap Ty.conjuncts := by
        rw [Ty.rebuildParts_eq_flatMap]
        rfl
      rw [hparts]
      split
      · next h => rw [h]; rfl
      · rfl

namespace Setting

open Query

variable {s : Setting} {k : Fragment} {m m' : Memory}

/-- The variables captured for wildcards have the bounds of their slots. -/
structure Fills (s : Setting) (σ : Subst) (last : Nat) (slots : List (TypeVar × Ty × Ty))
    (cs : List Captured) : Prop where
  length : cs.length = slots.length
  bounds : ∀ (j : Nat) c slot, cs[j]? = some c → slots[j]? = some slot →
    c.id = last + 1 + j ∧ c.lower = slot.2.2 ∧ ∃ site b,
      Ty.Replaced σ (s.catalog.upper slot.1) b ∧ c.upper = Ty.meetBounds site slot.2.1 b

/-- Capturing bounds fills the slots, and the memory stays. -/
theorem captureBounds_answers {σ : Subst} {last : Nat} {ps : List TypeVar} {as : List Arg}
    {cs : List Captured} (hm : m.Faithful s)
    (h : (s.captureBounds σ last ps as).Answers m cs m') :
    s.Fills σ last (slots ps as) cs ∧ m.Stays s m' := by
  induction ps generalizing last as cs m with
  | nil =>
    obtain ⟨rfl, rfl⟩ := answers_pure.1 (by simpa only [captureBounds] using h)
    exact ⟨⟨by simp [slots], by simp⟩, .refl hm⟩
  | cons p ps ih =>
    cases as with
    | nil =>
      obtain ⟨rfl, rfl⟩ := answers_pure.1 (by simpa only [captureBounds] using h)
      exact ⟨⟨by simp [slots], by simp⟩, .refl hm⟩
    | cons a as =>
      cases a with
      | type t => exact ih hm (by simpa only [captureBounds] using h)
      | wild u l =>
        rw [captureBounds] at h
        obtain ⟨b, m₁, hb, h⟩ := answers_bind.1 h
        obtain ⟨cs', m₂, hcs, h⟩ := answers_bind.1 h
        obtain ⟨rfl, rfl⟩ := answers_pure.1 h
        obtain ⟨hrep, hst⟩ := replace_answers hm hb
        obtain ⟨hfill, hst'⟩ := ih hst.faithful hcs
        refine ⟨⟨by simp [slots, hfill.length], fun j c slot hc hslot => ?_⟩, hst.trans hst'⟩
        cases j with
        | zero =>
          rw [List.getElem?_cons_zero] at hc
          rw [slots, List.getElem?_cons_zero] at hslot
          injection hc with hc
          injection hslot with hslot
          subst hc hslot
          exact ⟨rfl, rfl, _, b, hrep, rfl⟩
        | succ j =>
          rw [List.getElem?_cons_succ] at hc
          rw [slots, List.getElem?_cons_succ] at hslot
          obtain ⟨hid, hrest⟩ := hfill.bounds j c slot hc hslot
          exact ⟨by omega, hrest⟩

/-- Capturing bounds never fails. -/
theorem captureBounds_total (σ : Subst) (last : Nat) (ps : List TypeVar) (as : List Arg)
    (m : Memory) : ∃ cs m', (s.captureBounds σ last ps as).Answers m cs m' := by
  induction ps generalizing last as m with
  | nil => exact ⟨[], m, by simp [captureBounds]⟩
  | cons p ps ih =>
    cases as with
    | nil => exact ⟨[], m, by simp [captureBounds]⟩
    | cons a as =>
      cases a with
      | type t =>
        obtain ⟨cs, m', h⟩ := ih last as m
        exact ⟨cs, m', by simpa only [captureBounds] using h⟩
      | wild u l =>
        obtain ⟨b, m₁, hb⟩ := replace_total σ (s.catalog.upper p) m
        obtain ⟨cs, m₂, hcs⟩ := ih (last + 1) as m₁
        rw [captureBounds]
        exact ⟨_, m₂, answers_bind.2 ⟨b, m₁, hb, answers_bind.2
          ⟨cs, m₂, hcs, answers_pure.2 ⟨rfl, rfl⟩⟩⟩⟩

/-- Captured arguments commute with shapes. -/
theorem captureArgs_shape (last : Nat) (as : List Arg) :
    captureArgs last (as.map Arg.shape) = (captureArgs last as).map Arg.shape := by
  induction as generalizing last with
  | nil => rfl
  | cons a as ih => cases a <;> simp [captureArgs, ih]

/-- What is put in for variables has no sites, so that sites in it are no matter. -/
theorem image_zip_shape (vs : List TypeVar) (ts : List Ty) :
    (Subst.zip vs (ts.map Ty.shape)).image = (Subst.zip vs ts).image := by
  funext v
  rw [Subst.image, Subst.image, Subst.lookup_zip_map]
  cases (Subst.zip vs ts).lookup v with
  | none => rfl
  | some t => simp

/-- The types among arguments commute with shapes. -/
theorem types_shape (as : List Arg) :
    (as.map Arg.shape).filterMap Arg.type? = (as.filterMap Arg.type?).map Ty.shape :=
  type?_map_rebuild .var as

/-- The bound of a parameter with the captured arguments in the place of the parameters is
regular. -/
theorem replaced_regular (hs : s.Regular k) {decl : String} {l : Lineage} {as : List Arg}
    (h : s.Takes k decl l as) {p : TypeVar} (hp : p ∈ l.params) {ps : List TypeVar} {last : Nat}
    {b : Ty} (hb : Ty.Replaced (Subst.zip ps ((captureArgs last as).filterMap Arg.type?))
      (s.catalog.upper p) b) : b.Regular s k := by
  refine hb.regular s k (hs.bounds decl l h.lineage p hp).1 fun v _ u hu => ?_
  have := regular_captureArgs h last _ (mem_types (Subst.mem_of_lookup_zip hu))
  rwa [Arg.Regular] at this

/-- What capturing an applied declaration does to a memory: a variable is noted for each wildcard. -/
structure Captures (s : Setting) (n : Nominal) (m m' : Memory) (cs : List Captured) : Prop where
  faithful : m'.Faithful s
  fills : s.Fills (Subst.zip (s.paramsOf n.decl) ((captureArgs m.lastCaptured n.args).filterMap
    Arg.type?)) m.lastCaptured (slots (s.paramsOf n.decl) n.args) cs
  captured : m'.captured = cs.reverse ++ m.captured
  last : m'.lastCaptured = m.lastCaptured + n.args.countP Arg.isWild

namespace Captures

variable {n : Nominal} {cs : List Captured}

/-- After a capture, what is captured under a number is new or as before. -/
theorem captured?_eq (h : s.Captures n m m' cs) (i : Nat) : m'.captured? i =
    (if m.lastCaptured < i then cs[i - m.lastCaptured - 1]? else none).or (m.captured? i) := by
  have hid : ∀ j c, cs[j]? = some c → c.id = m.lastCaptured + 1 + j := by
    intro j c hc
    have hlt := (List.getElem?_eq_some_iff.1 hc).1
    exact (h.fills.bounds j c _ hc (List.getElem?_eq_getElem (h.fills.length ▸ hlt))).1
  rw [Memory.captured?, h.captured, List.find?_append, find?_reverse_captured hid]
  rfl

/-- The bounds of the variable captured for a wildcard. -/
theorem bounds (h : s.Captures n m m' cs) {j : Nat} {slot : TypeVar × Ty × Ty}
    (hslot : (slots (s.paramsOf n.decl) n.args)[j]? = some slot) :
    m'.lower (m.lastCaptured + 1 + j) = slot.2.2 ∧ ∃ site b,
      Ty.Replaced (Subst.zip (s.paramsOf n.decl) ((captureArgs m.lastCaptured n.args).filterMap
        Arg.type?)) (s.catalog.upper slot.1) b ∧
      m'.upper (m.lastCaptured + 1 + j) = Ty.meetBounds site slot.2.1 b := by
  have hlt := (List.getElem?_eq_some_iff.1 hslot).1
  have hc := List.getElem?_eq_getElem (h.fills.length ▸ hlt)
  obtain ⟨_, hlow, site, b, hrep, hup⟩ := h.fills.bounds j _ slot hc hslot
  have hfind := h.captured?_eq (m.lastCaptured + 1 + j)
  rw [if_pos (by omega), show m.lastCaptured + 1 + j - m.lastCaptured - 1 = j by omega, hc,
    Option.some_or] at hfind
  rw [Memory.lower, Memory.upper, hfind, Option.map_some, Option.map_some, Option.getD_some,
    Option.getD_some]
  exact ⟨hlow, site, b, hrep, hup⟩

end Captures

/-- **The scope is captured** when the wildcards of regular arguments are. -/
theorem Captures.scope_eq (hs : s.Regular k) {n : Nominal} {l : Lineage} {cs : List Captured}
    (hcs : s.Captures n m m' cs) (h : s.Takes k n.decl l n.args) :
    m'.scope = m.scope.capture s n.decl (n.args.map Arg.shape) := by
  have hslots : ∀ i, slot? (s.paramsOf n.decl) m.lastCaptured (n.args.map Arg.shape) i =
      (slot? (s.paramsOf n.decl) m.lastCaptured n.args i).map
        fun slot => (slot.1, slot.2.1.shape, slot.2.2.shape) := by
    intro i
    have := slots_map .var (s.paramsOf n.decl) n.args
    rw [slot?, slot?, show n.args.map Arg.shape = n.args.map (Arg.rebuild .var) from rfl, this]
    split
    · rw [List.getElem?_map]
      rfl
    · rfl
  have himage : capturedImage (s.paramsOf n.decl) m.lastCaptured (n.args.map Arg.shape) =
      (Subst.zip (s.paramsOf n.decl)
        ((captureArgs m.lastCaptured n.args).filterMap Arg.type?)).image := by
    rw [capturedImage, captureArgs_shape, types_shape, image_zip_shape]
  have hbounds : ∀ i, (m'.upper i).shape =
        (m.scope.capture s n.decl (n.args.map Arg.shape)).upper i ∧
      (m'.lower i).shape = (m.scope.capture s n.decl (n.args.map Arg.shape)).lower i := by
    intro i
    cases hslot : slot? (s.paramsOf n.decl) m.lastCaptured n.args i with
    | none =>
      have hnone : (if m.lastCaptured < i then cs[i - m.lastCaptured - 1]? else none) = none := by
        rw [slot?] at hslot
        split
        · next hi =>
          rw [if_pos hi] at hslot
          rw [List.getElem?_eq_none_iff] at hslot ⊢
          rw [hcs.fills.length]
          exact hslot
        · rfl
      have hslot' : slot? (s.paramsOf n.decl) m.lastCaptured (n.args.map Arg.shape) i = none := by
        rw [hslots, hslot, Option.map_none]
      rw [Memory.upper, Memory.lower, hcs.captured?_eq, hnone, Option.none_or]
      simp only [Scope.capture, Memory.scope, hslot']
      exact ⟨rfl, rfl⟩
    | some slot =>
      obtain ⟨hmem, hi⟩ := mem_slots_of_slot? hslot
      obtain ⟨hk, hp, hu, hl, hlen⟩ := h.of_slot hmem
      have hslot' : slot? (s.paramsOf n.decl) m.scope.last (n.args.map Arg.shape) i =
          some (slot.1, slot.2.1.shape, slot.2.2.shape) :=
        (hslots i).trans (by rw [hslot, Option.map_some])
      rw [Scope.capture_upper hslot', Scope.capture_lower hslot', Ty.shape_shape]
      obtain ⟨j, rfl⟩ : ∃ j, i = m.lastCaptured + 1 + j := ⟨i - m.lastCaptured - 1, by omega⟩
      rw [slot?_add] at hslot
      obtain ⟨hlow, site, b, hrep, hup⟩ := hcs.bounds hslot
      have hb := replaced_regular hs h hp hrep
      rw [hup, hlow, Ty.shape_meetBounds_of hu hb, hrep.shape, capturedUpper, Ty.shape_shape]
      exact ⟨congrArg _ (by rw [← himage]; rfl), rfl⟩
  rw [Memory.scope]
  refine congr (congr (congrArg Scope.mk ?_) ?_) ?_
  · funext i
    exact (hbounds i).1
  · funext i
    exact (hbounds i).2
  · show m'.lastCaptured = m.lastCaptured + _
    rw [hcs.last, show n.args.map Arg.shape = n.args.map (Arg.rebuild .var) from rfl, countP_map]

/-- The bounds of variables captured for regular arguments are regular. -/
theorem Captures.tame (hs : s.Regular k) {n : Nominal} {l : Lineage} {cs : List Captured}
    (hcs : s.Captures n m m' cs) (h : s.Takes k n.decl l n.args) (hm : m.Tame s k) :
    m'.Tame s k := by
  intro i
  rw [Memory.upper, Memory.lower, hcs.captured?_eq]
  cases hc : (if m.lastCaptured < i then cs[i - m.lastCaptured - 1]? else none) with
  | none =>
    rw [Option.none_or]
    exact hm i
  | some c =>
    rw [Option.some_or, Option.map_some, Option.map_some, Option.getD_some, Option.getD_some]
    split at hc
    · have hlt := (List.getElem?_eq_some_iff.1 hc).1
      have hslot := List.getElem?_eq_getElem (hcs.fills.length ▸ hlt)
      obtain ⟨hk, hp, hu, hl, _⟩ := h.of_slot (List.mem_of_getElem? hslot)
      obtain ⟨_, hlow, site, b, hrep, hup⟩ := hcs.fills.bounds _ c _ hc hslot
      rw [hup, hlow]
      refine ⟨fun _ => Ty.Regular.meetBounds hk hu ?_, fun _ => hl⟩
      exact replaced_regular hs h hp hrep
    · cases hc

/-- Arguments without wildcards leave no slots. -/
theorem slots_of_no_wild {ps : List TypeVar} {as : List Arg} (h : ∀ a ∈ as, a.isWild = false) :
    slots ps as = [] := by
  cases hs : slots ps as with
  | nil => rfl
  | cons slot rest =>
    have hmem : slot ∈ slots ps as := by rw [hs]; exact List.mem_cons_self
    cases h _ (mem_slots hmem).2

/-- **Capturing gives the captured arguments, and notes the variables captured for wildcards.** -/
theorem capture_fills {n n' : Nominal} (hm : m.Faithful s) (h : (s.capture n).Answers m n' m') :
    n' = { n with args := captureArgs m.lastCaptured n.args } ∧
      (∃ cs, s.Captures n m m' cs) ∧
      (n.hasWild = true → ∃ l, s.lineageOf n.decl = some l ∧ n.args.length = l.params.length) := by
  unfold capture at h
  split at h
  · obtain ⟨ps, m₁, hps, h⟩ := answers_bind.1 h
    obtain ⟨hsettles, hst⟩ := (params_steady s n.decl).stays hm hps
    obtain ⟨l, hl, rfl⟩ := settles_params hsettles
    split at h
    · exact absurd h answers_throw
    · next hlen =>
      obtain ⟨m₀, m₂, hget, hrest⟩ := answers_bind.1 h
      obtain ⟨rfl, rfl⟩ := answers_get.1 hget
      obtain ⟨_, m₃, hmod, hrest⟩ := answers_bind.1 hrest
      obtain rfl := answers_modify.1 hmod
      obtain ⟨cs, m₄, hcs, hrest⟩ := answers_bind.1 hrest
      obtain ⟨_, m₅, hmod', hrest⟩ := answers_bind.1 hrest
      obtain rfl := answers_modify.1 hmod'
      obtain ⟨rfl, rfl⟩ := answers_pure.1 hrest
      have hf : Memory.Faithful s
          { m₂ with lastCaptured := m₂.lastCaptured + n.args.countP Arg.isWild } := hst.faithful
      obtain ⟨hfill, hst'⟩ := captureBounds_answers hf hcs
      have hlast := hst.keeps.last
      rw [hlast, ← paramsOf_eq hl] at hfill
      refine ⟨by rw [hlast], ⟨cs, hst'.faithful, hfill, ?_, ?_⟩,
        fun _ => ⟨l, hl, (Decidable.not_not.1 hlen).symm⟩⟩
      · rw [hst'.keeps.captured, ← hst.keeps.captured]
      · show m₄.lastCaptured = _
        rw [hst'.keeps.last, ← hlast]
  · next hw =>
    obtain ⟨rfl, rfl⟩ := answers_pure.1 h
    have hwild : ∀ a ∈ n'.args, a.isWild = false := by
      rw [Nominal.hasWild, Bool.not_eq_true, List.any_eq_false] at hw
      exact fun a ha => by simpa using hw a ha
    have hcount : n'.args.countP Arg.isWild = 0 :=
      List.countP_eq_zero.2 fun a ha => by simp [hwild a ha]
    refine ⟨by rw [captureArgs_of_no_wild hwild], ⟨[], hm, ⟨?_, by simp⟩, rfl, by rw [hcount]; rfl⟩,
      fun hw' => absurd hw' hw⟩
    simp [slots_of_no_wild hwild]

/-- Capturing answers if there are as many arguments as parameters. -/
theorem capture_answered {n : Nominal} {ps : List TypeVar} {m₁ : Memory}
    (hps : (s.params n.decl).Answers m ps m₁) (hlen : ps.length = n.args.length) :
    ∃ n' m', (s.capture n).Answers m n' m' := by
  unfold capture
  split
  · obtain ⟨cs, m₂, hcs⟩ := captureBounds_total (s := s) (Subst.zip ps
      ((captureArgs m₁.lastCaptured n.args).filterMap Arg.type?)) m₁.lastCaptured ps n.args
      { m₁ with lastCaptured := m₁.lastCaptured + n.args.countP Arg.isWild }
    refine ⟨{ n with args := captureArgs m₁.lastCaptured n.args },
      { m₂ with captured := cs.reverse ++ m₂.captured }, answers_bind.2 ⟨ps, m₁, hps, ?_⟩⟩
    rw [if_neg (by simp [hlen])]
    exact answers_bind.2 ⟨m₁, m₁, answers_get.2 ⟨rfl, rfl⟩, answers_bind.2 ⟨(), _,
      answers_modify.2 rfl, answers_bind.2 ⟨cs, m₂, hcs, answers_bind.2 ⟨(), _,
        answers_modify.2 rfl, answers_pure.2 ⟨rfl, rfl⟩⟩⟩⟩⟩
  · exact ⟨_, _, answers_pure.2 ⟨rfl, rfl⟩⟩

/-- Capturing that fails leaves the captured variables as they are. -/
theorem capture_fails {n : Nominal} {f : Failure} (hm : m.Faithful s)
    (h : (s.capture n).outcome m = (.error f, m')) : m.Stays s m' := by
  obtain ⟨v, hv⟩ := params_steady s n.decl
  obtain ⟨-, hf, hl⟩ := hv m hm
  cases hps : (s.params n.decl).outcome m with
  | mk r m₁ =>
    rw [hps] at hf hl
    have hstays : m.Stays s m₁ := ⟨hf, hl.keeps⟩
    have hcapture := h
    unfold capture at h
    split at h
    · rw [outcome_bind, hps] at h
      cases r with
      | error e =>
        obtain ⟨-, rfl⟩ := Prod.mk.inj h
        exact hstays
      | ok ps =>
        dsimp only at h
        split at h
        · obtain ⟨-, rfl⟩ := Prod.mk.inj h
          exact hstays
        · next hlen =>
          obtain ⟨n', m₂, hanswers⟩ := capture_answered hps (Decidable.not_not.1 hlen)
          cases (Prod.mk.inj (hanswers.symm.trans hcapture)).1
    · cases h

/-- **Capturing captures the scope.** -/
theorem capture_answers (hs : s.Regular k) {n n' : Nominal} {l : Lineage} (hm : m.Faithful s)
    (hn : s.Takes k n.decl l n.args) (h : (s.capture n).Answers m n' m') :
    n' = { n with args := captureArgs m.lastCaptured n.args } ∧ m'.Faithful s ∧
      m'.scope = m.scope.capture s n.decl (n.args.map Arg.shape) ∧
        (m.Tame s k → m'.Tame s k) := by
  obtain ⟨hn', ⟨cs, hcs⟩, -⟩ := capture_fills hm h
  exact ⟨hn', hcs.faithful, hcs.scope_eq hs hn, hcs.tame hs hn⟩

/-- A declaration with no arguments or with as many as parameters can be captured. -/
theorem capture_total {n : Nominal} {l : Lineage} (hm : m.Faithful s) (hl : s.lineageOf n.decl = some l)
    (hcount : n.args = [] ∨ n.args.length = l.params.length) :
    ∃ n' m', (s.capture n).Answers m n' m' := by
  obtain ⟨m₁, hps, -⟩ := (params_settles hl).stays hm
  rcases hcount with hnil | hlen
  · unfold capture
    rw [Nominal.hasWild, hnil]
    exact ⟨_, _, answers_pure.2 ⟨rfl, rfl⟩⟩
  · exact capture_answered hps hlen.symm

end Setting
end Generics
