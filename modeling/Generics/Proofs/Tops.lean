/-
# The top declaration is above everything

In the full fragment every regular type is below the top declaration (`Below.object`), because
following the bounds of a variable comes to an end. What the top declaration is below, everything
is below (`Below.of_object`); so a member of an intersection on the left that is a top type can be
left out (`Below.of_inter`).

From this follows that a regular type is below itself (`Below.refl_of_regular`): a variable
captured for a wildcard is within the bounds of the wildcard, as a meeting is below what is met
(`Below.meetBounds_left`).
-/

import Generics.Proofs.Derivations

namespace Generics
namespace Below

variable {s : Setting} {k : Fragment} {Γ : Scope} {C : Nat → Prop} {a b t x : Ty}

/-- `Object` is below itself. -/
theorem object_object : Below s Γ .object .object := .raw (Setting.inherits_refl s objectName)

/-- A type is below the top declaration if the variables are that stand bare in it. -/
theorem object_of_bare (hs : s.Regular .full) (hx : x.Regular s .full) (ho : x.Over C)
    (hbare : ∀ i, Ty.var (.captured i) ∈ x.conjuncts → Below s Γ (.var (.captured i)) .object) :
    Below s Γ x.shape .object := by
  have hsimple : ∀ y : Ty, y.isInter = false → y.Regular s .full → y.Over C →
      (∀ i, y = .var (.captured i) → Below s Γ (.var (.captured i)) .object) →
        Below s Γ y.shape .object := by
    intro y hflat hy hyo hyb
    cases y with
    | prim p => cases hy.not_prim
    | null => exact .null Γ _
    | nominal st d as =>
      rw [Ty.Regular] at hy
      obtain ⟨⟨l, hl, _⟩, _⟩ := hy
      rw [Ty.shape_nominal]
      exact .raw (Setting.inherits_object hl)
    | array e =>
      refine .arrayParent ?_
      rw [Setting.isArrayParent, List.isEmpty_nil, Bool.true_and]
      exact List.contains_iff_mem.2 (hs.arrays rfl)
    | inter st ms => cases hflat
    | var v =>
      obtain ⟨i, rfl, _⟩ := hyo v (by simp [Ty.vars])
      exact hyb i rfl
  cases x with
  | inter st ms =>
    rw [Ty.shape_inter hx]
    rw [Ty.Regular] at hx
    have hms := Ty.regularAll_iff.1 hx.2
    cases ms with
    | nil => exact .top rfl object_object
    | cons m ms =>
      obtain ⟨hflat, hm⟩ := hms m List.mem_cons_self
      refine .member rfl List.mem_cons_self (hsimple m hflat hm (fun v hv => ?_) fun i hi => ?_)
      · exact ho v (by simp [Ty.vars, Ty.varsAll, hv])
      · exact hbare i (hi ▸ List.mem_cons_self)
  | _ => exact hsimple _ rfl hx ho fun i hi => hbare i (by rw [hi]; exact List.mem_cons_self)

/-- **Every regular type is below the top declaration.** -/
theorem object (hs : s.Regular .full) (hΓ : Γ.Sound s .full C) (hx : x.Regular s .full)
    (ho : x.Over C) : Below s Γ x.shape .object := by
  refine object_of_bare hs hx ho fun i hi => ?_
  have hC := ho.of_mem_conjuncts hi
  have hacc := hΓ.ranked i hC
  clear hi
  -- along the bounds
  induction hacc with
  | intro i _ ih =>
    have hup := object_of_bare (Γ := Γ) hs (hΓ.regular i hC).1 (hΓ.closed i hC).1 fun j hj =>
      ih j (.inl hj) (hΓ.bare hC (.inl hj))
    rw [(hΓ.shaped i hC).1] at hup
    exact .upper rfl hup

/-- What the empty intersection is below, the top declaration is below. -/
theorem object_of_top (h : Below s Γ (.inter .common []) t) : Below s Γ .object t := by
  generalize ha : Ty.inter .common [] = a at h
  induction h with
  | members _ ih => exact .members fun b hb => ih b hb ha
  | top _ h => exact h
  | member _ hm => injection ha with _ ha; subst ha; cases hm
  | lower hne => exact absurd ha.symm hne
  | _ => cases ha

/-- Going down to a lower bound, also from the empty intersection. -/
theorem lower_of_any {i : Nat} (h : Below s Γ a (Γ.lower i)) : Below s Γ a (.var (.captured i)) := by
  by_cases ha : a = .inter .common []
  · subst ha
    exact .top rfl (.lower (by simp [Ty.object]) (object_of_top h))
  · exact .lower ha h

/-- **What the top declaration is below, everything is below.** -/
theorem of_object (hs : s.Regular .full) (hΓ : Γ.Sound s .full C) (hx : x.Regular s .full)
    (ho : x.Over C) (h : Below s Γ .object t) : Below s Γ x.shape t := by
  generalize ha : Ty.object = a at h
  induction h with
  | raw hi =>
    injection ha with _ hd _
    subst hd
    rw [Setting.eq_object_of_inherits hs.object hi]
    exact object hs hΓ hx ho
  | args hi hbs _ hseen hlen _ =>
    injection ha with _ hd has
    subst hd has
    rw [Setting.eq_object_of_inherits hs.object hi] at hseen
    rw [hseen.unique (.here _)] at hlen
    exact absurd (List.length_eq_zero_iff.1 hlen.symm) hbs
  | members _ ih => exact .members fun b hb => ih b hb hΓ ha
  | lower _ _ ih => exact lower_of_any (ih hΓ ha)
  | _ => cases ha

/-- What a top type is below, everything is below. -/
theorem of_isTop (hs : s.Regular .full) (hΓ : Γ.Sound s .full C) (hx : x.Regular s .full)
    (ho : x.Over C) (ha : a.isTop = true) (hshape : a.shape = a) (h : Below s Γ a t) :
    Below s Γ x.shape t := by
  refine of_object hs hΓ hx ho ?_
  cases a with
  | nominal st d as =>
    cases as with
    | nil =>
      rw [Ty.isTop, beq_iff_eq] at ha
      subst ha
      rw [← hshape] at h
      exact h
    | cons _ _ => cases ha
  | inter st ms =>
    cases ms with
    | nil =>
      rw [← hshape] at h
      exact object_of_top h
    | cons _ _ => cases ha
  | _ => cases ha

/-- **Top types can be left out of an intersection on the left.** -/
theorem of_inter (hs : s.Regular .full) (hΓ : Γ.Sound s .full C) (hx : x.Regular s .full)
    (ho : x.Over C) (hshape : x.shape = x) {ms : List Ty}
    (hms : ∀ m ∈ ms, m.isTop = true ∧ m.shape = m ∨ m ∈ x.conjuncts)
    (h : Below s Γ (.inter .common ms) t) : Below s Γ x t := by
  generalize ha : Ty.inter .common ms = a at h
  induction h with
  | members _ ih => exact .members fun b hb => ih b hb hΓ ha
  | top _ h => exact hshape ▸ of_object hs hΓ hx ho h
  | @member _ m b as hb hm h =>
    injection ha with _ ha
    subst ha
    rcases hms m hm with ⟨htop, hm⟩ | hm
    · exact hshape ▸ of_isTop hs hΓ hx ho htop hm h
    · cases x with
      | inter st ns =>
        rw [← hshape, Ty.shape_inter hx]
        rw [Ty.shape_inter hx] at hshape
        injection hshape with _ hns
        rw [hns]
        exact .member hb hm h
      | _ =>
        rw [Ty.conjuncts, List.mem_singleton] at hm
        · rw [← hm]
          exact h
        · intro _ _ h'
          cases h'
  | lower _ _ ih => exact lower_of_any (ih hΓ ha)
  | _ => cases ha

/-- What either of two types consists of belongs to their meeting. -/
theorem conjuncts_meet {p q c : Ty} (h : c ∈ p.conjuncts ∨ c ∈ q.conjuncts) :
    c ∈ (Ty.meet .common [p, q]).conjuncts := by
  have hc : c ∈ [p, q].flatMap Ty.conjuncts := by simpa using h
  rw [Ty.meet]
  split
  · next h' => rw [h'] at hc; cases hc
  · exact hc

/-- What a top type consists of is top. -/
theorem isTop_of_mem_conjuncts {p c : Ty} (hp : p.isTop = true) (hshape : p.shape = p)
    (hc : c ∈ p.conjuncts) : c.isTop = true ∧ c.shape = c := by
  cases p with
  | inter st ms =>
    cases ms with
    | nil => cases hc
    | cons _ _ => cases hp
  | nominal st d as =>
    rw [Ty.conjuncts, List.mem_singleton] at hc
    · subst hc
      exact ⟨hp, hshape⟩
    · intro _ _ h'
      cases h'
  | _ => cases hp

/-- **The greatest type below two bounds is below what their intersection is below.** -/
theorem of_meetBounds (hs : s.Regular .full) (hΓ : Γ.Sound s .full C) {p q : Ty}
    (hp : p.Regular s .full) (hq : q.Regular s .full) (hpo : p.Over C) (hqo : q.Over C)
    (hps : p.shape = p) (hqs : q.shape = q)
    (h : Below s Γ (.inter .common (p.conjuncts ++ q.conjuncts)) t) :
    Below s Γ (Ty.meetBounds .common p q) t := by
  refine of_inter hs hΓ (Ty.Regular.meetBounds rfl hp hq) (fun v hv => ?_)
    (Ty.shape_meetBounds hps hqs) (fun m hm => ?_) h
  · rcases Ty.mem_vars_meetBounds hv with hv | hv
    · exact hpo v hv
    · exact hqo v hv
  · rw [List.mem_append] at hm
    by_cases hptop : p.isTop = true
    · rw [Ty.meetBounds, if_pos hptop]
      exact hm.imp (isTop_of_mem_conjuncts hptop hps) id
    · by_cases hqtop : q.isTop = true
      · rw [Ty.meetBounds, if_neg hptop, if_pos hqtop]
        exact hm.symm.imp (isTop_of_mem_conjuncts hqtop hqs) id
      · rw [Ty.meetBounds, if_neg hptop, if_neg hqtop]
        exact .inr (conjuncts_meet hm)

/-- The meeting with a type that is not top is an intersection. -/
theorem meet_eq {p q : Ty} (hp : p.isTop = false) (hshape : p.shape = p) :
    Ty.meet .common [p, q] = .inter .common (p.conjuncts ++ q.conjuncts) := by
  have hne : [p, q].flatMap Ty.conjuncts ≠ [] := by
    intro h
    cases p with
    | inter st ms =>
      cases ms with
      | nil => cases hp
      | cons m ms => simp [Ty.conjuncts] at h
    | _ => simp [Ty.conjuncts] at h
  rw [Ty.meet]
  split
  · next h => exact absurd h hne
  · simp

/-- Below an intersection, member by member. -/
theorem of_conjuncts (hb : b.Regular s k) (hshape : b.shape = b)
    (h : ∀ c ∈ b.conjuncts, Below s Γ a c) : Below s Γ a b := by
  cases b with
  | inter st ms =>
    rw [Ty.shape_inter hb] at hshape
    injection hshape with hst _
    rw [← hst]
    exact .members h
  | _ =>
    refine h _ ?_
    rw [Ty.conjuncts]
    · exact List.mem_cons_self
    · intro _ _ h'
      cases h'

/-- An intersection is below what contributes to it. -/
theorem inter_conjuncts (hb : b.Regular s k) (hshape : b.shape = b)
    (hrefl : ∀ c ∈ b.conjuncts, Below s Γ c c) {ms : List Ty} (hms : ∀ c ∈ b.conjuncts, c ∈ ms) :
    Below s Γ (.inter .common ms) b :=
  of_conjuncts hb hshape fun c hc =>
    .member (Ty.isInter_eq_false_of_mem_conjuncts hb hc).1 (hms c hc) (hrefl c hc)

/-- A type is below itself if each type that it consists of is. -/
theorem refl_of_conjuncts (hb : b.Regular s k) (hshape : b.shape = b)
    (hrefl : ∀ c ∈ b.conjuncts, Below s Γ c c) : Below s Γ b b := by
  cases b with
  | inter st ms =>
    have hst := hshape
    rw [Ty.shape_inter hb] at hst
    injection hst with hst _
    rw [← hst]
    rw [← hst] at hb hshape hrefl
    exact inter_conjuncts hb hshape hrefl fun c hc => hc
  | _ =>
    refine hrefl _ ?_
    rw [Ty.conjuncts]
    · exact List.mem_cons_self
    · intro _ _ h'
      cases h'

/-- **The upper bound of a captured variable is below that of its wildcard.** -/
theorem meetBounds_left (hs : s.Regular .full) (hΓ : Γ.Sound s .full C) {p q : Ty}
    (hp : p.Regular s .full) (hq : q.Regular s .full) (hqo : q.Over C)
    (hps : p.shape = p) (hqs : q.shape = q) (hrefl : ∀ c ∈ p.conjuncts, Below s Γ c c) :
    Below s Γ (Ty.meetBounds .common p q) p := by
  cases hptop : p.isTop with
  | true =>
    rw [Ty.meetBounds, if_pos hptop]
    refine of_conjuncts hp hps fun c hc => ?_
    cases p with
    | inter st ms =>
      cases ms with
      | nil => cases hc
      | cons _ _ => cases hptop
    | nominal st d as =>
      cases as with
      | nil =>
        rw [Ty.conjuncts, List.mem_singleton] at hc
        · rw [Ty.isTop, beq_iff_eq] at hptop
          rw [hc, ← hps, Ty.shape_nominal, hptop, ← hqs]
          exact object hs hΓ hq hqo
        · intro _ _ h'
          cases h'
      | cons _ _ => cases hptop
    | _ => cases hptop
  | false =>
    rw [Ty.meetBounds, if_neg (by simp [hptop])]
    split
    · exact refl_of_conjuncts hp hps hrefl
    · rw [meet_eq hptop hps]
      exact inter_conjuncts hp hps hrefl fun c hc => List.mem_append_left _ hc

/-- Going up to an upper bound, also where the right side is an intersection. -/
theorem upper_of_any {i : Nat} (hb : b.Regular s k) (hshape : b.shape = b)
    (h : Below s Γ (Γ.upper i) b) : Below s Γ (.var (.captured i)) b := by
  refine of_conjuncts hb hshape fun c hc => ?_
  refine .upper (Ty.isInter_eq_false_of_mem_conjuncts hb hc).1 ?_
  cases b with
  | inter st ms =>
    rw [Ty.shape_inter hb] at hshape
    injection hshape with hst _
    rw [← hst] at h
    exact inter_right.1 h c hc
  | _ =>
    rw [Ty.conjuncts_of_not_inter rfl, List.mem_singleton] at hc
    rw [hc]
    exact h

end Below

namespace Setting

variable {s : Setting} {k : Fragment} {Γ : Scope} {C : Nat → Prop} {decl : String} {l : Lineage}
  {as : List Arg}

/-- Arguments suit a declaration if their shapes do. -/
theorem Suits.shape (h : s.Suits k C decl l as) : s.Suits k C decl l (as.map Arg.shape) where
  lineage := h.lineage
  count := by simpa using h.count
  regular a ha := by
    obtain ⟨b, hb, rfl⟩ := List.mem_map.1 ha
    exact (h.regular b hb).rebuild fun _ _ => by rw [Ty.Regular]; trivial
  argsOver a ha v hv := by
    obtain ⟨b, hb, rfl⟩ := List.mem_map.1 ha
    rw [Arg.shape, Arg.vars_rebuild, List.mem_flatMap] at hv
    obtain ⟨w, hw, hv⟩ := hv
    rw [Ty.vars, List.mem_singleton] at hv
    exact h.argsOver b hb v (hv ▸ hw)

/-- The arguments of a regular type suit its declaration. -/
theorem suits_of_regular {st : Site} (h : (Ty.nominal st decl as).Regular s k)
    (ho : (Ty.nominal st decl as).Over C) : ∃ l, s.Suits k C decl l as := by
  rw [Ty.Regular] at h
  obtain ⟨⟨l, hl, hlen⟩, hreg⟩ := h
  refine ⟨l, ⟨hl, hlen.imp List.length_eq_zero_iff.1 id, Arg.regularAll_iff.1 hreg⟩,
    fun a ha v hv => ?_⟩
  exact ho v (by rw [Ty.vars, Arg.mem_varsAll]; exact ⟨a, ha, hv⟩)

/-- Each argument is contained in itself after capture, if its parts are below themselves. -/
theorem demands_self (hs : s.Regular k) (hΓ : Γ.Sound s k C) (h : s.Suits k C decl l as)
    (hshape : ∀ a ∈ as, a.shape = a)
    (hrefl : ∀ a ∈ as, ∀ t ∈ a.parts, ∀ c ∈ t.conjuncts, Below s (Γ.capture s decl as) c c) :
    ∀ x ∈ Arg.demandsAll (captureArgs Γ.last as) as,
      Below s (Γ.capture s decl as) x.1 x.2 := by
  intro x hx
  have hΓ' := hΓ.capture hs h
  obtain ⟨⟨c, a⟩, hca, hx⟩ := List.mem_flatMap.1 hx
  have ha := (List.of_mem_zip hca).2
  have hreg := h.regular a ha
  have hsh := hshape a ha
  rcases mem_zip_captureArgs_self h.length_le hca with ⟨t, rfl, rfl⟩ | ⟨p, u, lo, j, rfl, rfl, hj⟩
  · have ht : t.shape = t := by
      rw [Arg.shape_type] at hsh
      injection hsh
    have hself : Below s (Γ.capture s decl as) t t :=
      Below.refl_of_conjuncts (hreg.parts List.mem_cons_self) ht (hrefl _ ha t List.mem_cons_self)
    rcases List.mem_cons.1 hx with rfl | hx
    · exact hself
    · rw [List.mem_singleton.1 hx]
      exact hself
  · rw [Arg.shape_wild] at hsh
    injection hsh with hu hlo
    have hslot : slot? (s.paramsOf decl) Γ.last as (Γ.last + 1 + j) = some (p, u, lo) :=
      (slot?_add ..).trans hj
    have hmem := (mem_slots_of_slot? hslot).1
    obtain ⟨rfl, hp, hur, hlr, hlen⟩ := h.of_slot hmem
    obtain ⟨hreg', hvars⟩ := hs.bounds decl l h.lineage p hp
    have hlow : Below s (Γ.capture s decl as) lo lo := Below.refl_of_conjuncts hlr hlo
      (hrefl _ ha lo (List.mem_cons_of_mem _ List.mem_cons_self))
    rcases List.mem_cons.1 hx with rfl | hx
    · refine Below.lower_of_any ?_
      rw [Scope.capture_lower hslot, hlo]
      exact hlow
    · rw [List.mem_singleton.1 hx]
      refine Below.upper_of_any hur hu ?_
      rw [Scope.capture_upper hslot, capturedUpper, hu]
      refine Below.meetBounds_left hs hΓ' hur (hreg'.rebuild fun v hv => ?_) (fun v hv => ?_) hu
        (Ty.shape_rebuild (Subst.siteless_image _) _) (hrefl _ ha u List.mem_cons_self)
      · obtain ⟨q, hq, rfl⟩ := hvars v hv
        exact (Scope.vars_capturedImage h.toTakes hlen hq).1
      · obtain ⟨w, hw, hv⟩ := Ty.mem_vars_rebuild.1 hv
        obtain ⟨q, hq, rfl⟩ := hvars w hw
        exact Scope.over_capturedImage h hlen hq v hv

end Setting

namespace Below

variable {s : Setting} {k : Fragment}

/-- The parts of regular arguments contribute regular types. -/
theorem conjuncts_shape_refl {t : Ty} (ht : t.Regular s k) {Γ : Scope}
    (h : ∀ c ∈ t.conjuncts, Below s Γ c.shape c.shape) : ∀ c ∈ t.shape.conjuncts, Below s Γ c c := by
  intro c hc
  cases t with
  | inter st ms =>
    rw [Ty.shape_inter ht] at hc
    obtain ⟨m, hm, rfl⟩ := List.mem_map.1 hc
    exact h m hm
  | _ =>
    rw [Ty.conjuncts_of_not_inter rfl, List.mem_singleton] at hc
    rw [hc]
    exact h _ (by rw [Ty.conjuncts_of_not_inter rfl]; exact List.mem_cons_self)

mutual
/-- **A regular type is below itself.** -/
theorem refl_of_regular (hs : s.Regular k) :
    ∀ {t : Ty}, t.Regular s k → ∀ {Γ : Scope} {C : Nat → Prop}, Γ.Sound s k C → t.Over C →
      ∀ c ∈ t.conjuncts, Below s Γ c.shape c.shape
  | .prim p, _, Γ, _, _, _, c, hc => by
    rw [List.mem_singleton.1 hc]
    exact .prim Γ p
  | .null, _, Γ, _, _, _, c, hc => by
    rw [List.mem_singleton.1 hc]
    exact .null Γ _
  | .nominal st d as, h, Γ, C, hΓ, ho, c, hc => by
    rw [List.mem_singleton.1 hc, Ty.shape_nominal]
    obtain ⟨l, hsuits⟩ := Setting.suits_of_regular h ho
    rw [Ty.Regular] at h
    cases as with
    | nil => exact .raw (Setting.inherits_refl s d)
    | cons a as =>
      have hΓ' := hΓ.capture hs hsuits.shape
      refine .args (Setting.inherits_refl s d) (by simp) (by simp) (.here _)
        (Setting.length_captureArgs _ _)
        (Setting.demands_self hs hΓ hsuits.shape (fun b hb => ?_) fun b hb t ht => ?_)
      · obtain ⟨b', _, rfl⟩ := List.mem_map.1 hb
        rw [Arg.shape, Arg.shape, Arg.rebuild_rebuild]
        rfl
      · obtain ⟨b', hb', rfl⟩ := List.mem_map.1 hb
        have hall := refl_of_regularAll hs h.2 hΓ' (fun a' ha' v hv => by
          obtain ⟨i, hi, hC⟩ := hsuits.argsOver a' ha' v hv
          exact ⟨i, hi, .inl hC⟩) b' hb'
        have hreg := Arg.regularAll_iff.1 h.2 b' hb'
        cases b' with
        | type u =>
          rw [Arg.shape_type] at ht
          rw [List.mem_singleton.1 ht]
          exact conjuncts_shape_refl (hreg.parts List.mem_cons_self) (hall u List.mem_cons_self)
        | wild u lo =>
          rw [Arg.shape_wild] at ht
          rcases List.mem_cons.1 ht with rfl | ht
          · exact conjuncts_shape_refl (hreg.parts List.mem_cons_self) (hall u List.mem_cons_self)
          · rw [List.mem_singleton.1 ht]
            exact conjuncts_shape_refl (hreg.parts (List.mem_cons_of_mem _ List.mem_cons_self))
              (hall lo (List.mem_cons_of_mem _ List.mem_cons_self))
  | .array e, h, Γ, C, hΓ, ho, c, hc => by
    rw [List.mem_singleton.1 hc, Ty.shape_array]
    rw [Ty.Regular] at h
    cases hprim : e.isPrim with
    | true =>
      cases e with
      | prim p => exact .components Γ p
      | _ => cases hprim
    | false =>
      have he : e.Regular s k := by
        rcases h with h | h
        · rw [hprim] at h; cases h
        · exact h
      have hprim' : e.shape.isPrim = false := by
        cases e <;> first | rfl | cases hprim
      refine .component hprim' hprim' (refl_of_conjuncts he.shape (Ty.shape_shape e) ?_)
      exact conjuncts_shape_refl he (refl_of_regular hs he hΓ ho)
  | .inter st ms, h, Γ, C, hΓ, ho, c, hc => by
    rw [Ty.Regular] at h
    refine refl_of_members hs h.2 hΓ (fun m hm v hv => ho v ?_) c hc
    rw [Ty.vars, Ty.mem_varsAll]
    exact ⟨m, hm, hv⟩
  | .var v, _, Γ, _, _, _, c, hc => by
    rw [List.mem_singleton.1 hc]
    exact .refl Γ v

/-- What the types in an argument consist of is below itself. -/
theorem refl_of_parts (hs : s.Regular k) :
    ∀ {a : Arg}, a.Regular s k → ∀ {Γ : Scope} {C : Nat → Prop}, Γ.Sound s k C →
      (∀ v ∈ a.vars, ∃ i, v = .captured i ∧ C i) →
        ∀ t ∈ a.parts, ∀ c ∈ t.conjuncts, Below s Γ c.shape c.shape
  | .type u, h, Γ, C, hΓ, ho, t, ht, c, hc => by
    rw [Arg.Regular] at h
    rw [List.mem_singleton.1 ht] at hc
    exact refl_of_regular hs h hΓ ho c hc
  | .wild u lo, h, Γ, C, hΓ, ho, t, ht, c, hc => by
    rw [Arg.Regular] at h
    simp only [Arg.vars, List.mem_append] at ho
    rcases List.mem_cons.1 ht with ht | ht
    · rw [ht] at hc
      exact refl_of_regular hs h.2.1 hΓ (fun v hv => ho v (.inl hv)) c hc
    · rw [List.mem_singleton.1 ht] at hc
      exact refl_of_regular hs h.2.2 hΓ (fun v hv => ho v (.inr hv)) c hc

/-- The same for arguments. -/
theorem refl_of_regularAll (hs : s.Regular k) :
    ∀ {as : List Arg}, Arg.RegularAll s k as → ∀ {Γ : Scope} {C : Nat → Prop}, Γ.Sound s k C →
      (∀ a ∈ as, ∀ v ∈ a.vars, ∃ i, v = .captured i ∧ C i) →
        ∀ a ∈ as, ∀ t ∈ a.parts, ∀ c ∈ t.conjuncts, Below s Γ c.shape c.shape
  | [], _, _, _, _, _, a, ha, _, _, _, _ => absurd ha List.not_mem_nil
  | b :: as, h, Γ, C, hΓ, ho, a, ha, t, ht, c, hc => by
    rw [Arg.RegularAll] at h
    rcases List.mem_cons.1 ha with ha | ha
    · rw [ha] at ht
      exact refl_of_parts hs h.1 hΓ (ho b List.mem_cons_self) t ht c hc
    · exact refl_of_regularAll hs h.2 hΓ (fun b hb => ho b (List.mem_cons_of_mem _ hb)) a ha t ht c hc

/-- Members are below themselves. -/
theorem refl_of_members (hs : s.Regular k) :
    ∀ {ms : List Ty}, Ty.RegularAll s k ms → ∀ {Γ : Scope} {C : Nat → Prop}, Γ.Sound s k C →
      (∀ m ∈ ms, m.Over C) → ∀ m ∈ ms, Below s Γ m.shape m.shape
  | [], _, _, _, _, _, m, hm => absurd hm List.not_mem_nil
  | t :: ts, h, Γ, C, hΓ, ho, m, hm => by
    rw [Ty.RegularAll] at h
    rcases List.mem_cons.1 hm with hm | hm
    · rw [hm]
      refine refl_of_regular hs h.1.2 hΓ (ho t List.mem_cons_self) t ?_
      rw [Ty.conjuncts_of_not_inter h.1.1]
      exact List.mem_cons_self
    · exact refl_of_members hs h.2 hΓ (fun u hu => ho u (List.mem_cons_of_mem _ hu)) m hm
end

/-- **A regular type is below itself**, as a whole. -/
theorem refl_self (hs : s.Regular k) {t : Ty} (ht : t.Regular s k) {Γ : Scope} {C : Nat → Prop}
    (hΓ : Γ.Sound s k C) (ho : t.Over C) : Below s Γ t.shape t.shape :=
  refl_of_conjuncts ht.shape (Ty.shape_shape t)
    (conjuncts_shape_refl ht (refl_of_regular hs ht hΓ ho))

end Below
end Generics
