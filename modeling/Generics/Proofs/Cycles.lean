/-
# Variables that lead back to themselves

From a variable there is a step to each variable that stands bare in its bound: the bound itself, or a member
of the intersection that the bound is (`Catalog.StepsTo`, `Ty.bare_iff_of_flat`). Variables are recognised by
declaration and name.

Looking for a variable on the way up from itself, every key is entered once. The search as such has nothing
that limits it: it takes types from a stack, puts the members of intersections and the bounds of variables on
it, and notes the variables it has entered (`Climb`). It comes to an end in every catalog, also if bounds lead
round in circles that avoid the variable, and answers what `Catalog.selfBounded` does (`Climb.ends`).

That answer is yes only if the variable is reached (`selfBounded_sound`). It is yes whenever the variable is
reached, if variables of one key have equal bounds (`selfBounded_complete`), as those have that definitions
are read as (`Definition.selfBounded?_eq_none_iff`). Where they do not, only the first one that is met is
entered, and a way back that goes through another one is missed (`selfBounded_misses`).
-/

import Generics.Proofs.Catalogs
import Generics.Proofs.Reflexivity

namespace Generics

/-! ### Steps up the bounds -/

/-- The variable stands bare in a type: it is the type, or stands bare in a member of the intersection that
the type is. -/
inductive Ty.Bare (v : TypeVar) : Ty → Prop
  | var : Ty.Bare v (.var (.declared v))
  | member {site : Site} {members : List Ty} {t : Ty} : t ∈ members → Ty.Bare v t →
    Ty.Bare v (.inter site members)

mutual
/-- The variables that stand bare in a type are those that are listed. -/
theorem Ty.bare_iff {v : TypeVar} : ∀ {t : Ty}, Ty.Bare v t ↔ v ∈ t.bareVars
  | .prim _ => ⟨nofun, fun h => by simp [Ty.bareVars] at h⟩
  | .null => ⟨nofun, fun h => by simp [Ty.bareVars] at h⟩
  | .nominal _ _ _ => ⟨nofun, fun h => by simp [Ty.bareVars] at h⟩
  | .array _ => ⟨nofun, fun h => by simp [Ty.bareVars] at h⟩
  | .inter _ ms => by
    rw [Ty.bareVars, ← Ty.exists_bare_iff]
    constructor
    · rintro (_ | ⟨ht, hv⟩)
      exact ⟨_, ht, hv⟩
    · rintro ⟨t, ht, hv⟩
      exact .member ht hv
  | .var (.declared w) => by
    rw [Ty.bareVars, List.mem_singleton]
    constructor
    · rintro ⟨⟩
      rfl
    · rintro rfl
      exact .var
  | .var (.captured _) => ⟨nofun, fun h => by simp [Ty.bareVars] at h⟩

/-- The variables that stand bare in one of some types are those that are listed. -/
theorem Ty.exists_bare_iff {v : TypeVar} :
    ∀ {ts : List Ty}, (∃ t ∈ ts, Ty.Bare v t) ↔ v ∈ Ty.bareVarsAll ts
  | [] => by simp [Ty.bareVarsAll]
  | t :: ts => by
    rw [Ty.bareVarsAll, List.mem_append, ← Ty.bare_iff, ← Ty.exists_bare_iff, List.exists_mem_cons_iff]
end

/-- In a flat type the variables that stand bare are the type itself or its members. -/
theorem Ty.bare_iff_of_flat {v : TypeVar} {t : Ty} (h : t.isFlat = true) :
    Ty.Bare v t ↔ t = .var (.declared v) ∨
      ∃ site members, t = .inter site members ∧ .var (.declared v) ∈ members := by
  constructor
  · rintro (_ | ⟨ht, hv⟩)
    · exact .inl rfl
    · next site members t =>
      refine .inr ⟨site, members, rfl, ?_⟩
      rw [Ty.isFlat, Ty.allFlat_iff] at h
      cases hv with
      | var => exact ht
      | member => cases (h _ ht).1
  · rintro (rfl | ⟨site, members, rfl, hv⟩)
    · exact .var
    · exact .member hv .var

mutual
/-- In types of one shape, variables of the same keys stand bare. -/
theorem Ty.bareVars_of_sameShape : ∀ {a b : Ty}, a.sameShape b = true →
    a.bareVars.map TypeVar.key = b.bareVars.map TypeVar.key
  | .prim p, _, h => by rw [Ty.eq_of_sameShape_prim h]
  | .null, _, h => by rw [Ty.eq_of_sameShape_null h]
  | .nominal st d as, _, h => by
    obtain ⟨_, _, rfl, -⟩ := Ty.eq_of_sameShape_nominal h
    rw [Ty.bareVars, Ty.bareVars] <;> nofun
  | .array e, _, h => by
    obtain ⟨_, rfl, -⟩ := Ty.eq_of_sameShape_array h
    rw [Ty.bareVars, Ty.bareVars] <;> nofun
  | .inter st ms, _, h => by
    obtain ⟨_, ns, rfl, hmembers⟩ := Ty.eq_of_sameShape_inter h
    rw [Ty.bareVars, Ty.bareVars, Ty.bareVarsAll_of_sameShape hmembers]
  | .var v, _, h => by
    obtain ⟨w, rfl, hkey⟩ := Ty.eq_of_sameShape_var h
    cases v <;> cases w <;> simp_all [Ty.bareVars, Var.key, TypeVar.key]
termination_by structural a => a

/-- Types of the same shape list bare variables of the same keys. -/
theorem Ty.bareVarsAll_of_sameShape : ∀ {as bs : List Ty}, Ty.sameShapeAll as bs = true →
    (Ty.bareVarsAll as).map TypeVar.key = (Ty.bareVarsAll bs).map TypeVar.key
  | [], _, h => by rw [Ty.eq_of_sameShape_nil h]
  | a :: as, _, h => by
    obtain ⟨b, bs, rfl, hb, hbs⟩ := Ty.eq_of_sameShape_cons h
    rw [Ty.bareVarsAll, Ty.bareVarsAll, List.map_append, List.map_append, Ty.bareVars_of_sameShape hb,
      Ty.bareVarsAll_of_sameShape hbs]
termination_by structural as => as
end

namespace Catalog

/-- A step from a variable to one that stands bare in its bound. -/
def StepsTo (c : Catalog) (v w : TypeVar) : Prop := Ty.Bare w (c.upper v)

/-- A step is one from a variable to what its bound leads to. -/
theorem stepsTo_iff {c : Catalog} {v w : TypeVar} : c.StepsTo v w ↔ c.Bounds w v := Ty.bare_iff

instance (c : Catalog) (v w : TypeVar) : Decidable (c.StepsTo v w) :=
  decidable_of_iff (w ∈ c.boundVars v) stepsTo_iff.symm

/-- What bounds a variable, directly or not, is what steps lead to. -/
theorem steps_iff {c : Catalog} {v w : TypeVar} :
    Relation.ReflTransGen c.Bounds w v ↔ Relation.ReflTransGen c.StepsTo v w := by
  have hswap : c.StepsTo = Function.swap c.Bounds := funext₂ fun _ _ => propext stepsTo_iff
  rw [hswap, Relation.reflTransGen_swap]

/-- One or more steps lead from the variable to a variable of the same declaration and name. -/
def LeadsBack (c : Catalog) (v : TypeVar) : Prop :=
  ∃ w, Relation.TransGen c.StepsTo v w ∧ w.key = v.key

/-- Of the variables that one or more steps from a variable lead to, those of one declaration and name have
equal bounds. -/
def BoundsAgree (c : Catalog) (v : TypeVar) : Prop :=
  ∀ w w', Relation.TransGen c.StepsTo v w → Relation.TransGen c.StepsTo v w' →
    w.key = w'.key → (c.upper w).equal (c.upper w') = true

/-- Bounds agree if they agree within some variables that every step leads to. -/
theorem BoundsAgree.of_closed {c : Catalog} {v : TypeVar} (vs : List TypeVar)
    (hclosed : ∀ u ∈ v :: vs, ∀ w ∈ c.boundVars u, w ∈ vs)
    (hagree : ∀ u ∈ vs, ∀ w ∈ vs, u.key = w.key → (c.upper u).equal (c.upper w) = true) :
    c.BoundsAgree v := by
  have hreached : ∀ w, Relation.TransGen c.StepsTo v w → w ∈ vs := by
    intro w hw
    induction hw with
    | single hstep => exact hclosed v List.mem_cons_self _ (stepsTo_iff.1 hstep)
    | tail _ hstep ih => exact hclosed _ (List.mem_cons_of_mem _ ih) _ (stepsTo_iff.1 hstep)
  exact fun w w' hw hw' => hagree w (hreached w hw) w' (hreached w' hw')

/-- Bounds agree where keys tell the variables apart that bound others. -/
theorem Encloses.boundsAgree {c : Catalog} {vs : List TypeVar} (h : c.Encloses vs) {v : TypeVar}
    (hv : v ∈ vs) : c.BoundsAgree v := by
  have hreached : ∀ w, Relation.TransGen c.StepsTo v w → ∃ u ∈ vs, c.Bounds w u := by
    intro w hw
    induction hw with
    | single hstep => exact ⟨v, hv, stepsTo_iff.1 hstep⟩
    | tail _ hstep ih =>
      obtain ⟨u, hu, hbounds⟩ := ih
      exact ⟨_, h.bounds u hu _ hbounds, stepsTo_iff.1 hstep⟩
  intro w w' hw hw' hkey
  obtain ⟨u, hu, hbounds⟩ := hreached w hw
  obtain ⟨u', hu', hbounds'⟩ := hreached w' hw'
  obtain rfl := h.keys u hu w hbounds u' hu' w' hbounds' hkey
  exact Ty.equal_of_sameShape (Ty.sameShape_refl _)

/-- The catalog knows the keys of all variables that bound another one. -/
theorem key_mem_boundKeys {c : Catalog} {v w : TypeVar} (h : c.Bounds w v) : w.key ∈ c.boundKeys := by
  have hmem : w ∈ (c.upper v).bareVars := h
  rw [boundKeys, List.mem_append, List.mem_flatMap, List.mem_flatMap]
  cases hbound : c.bound? v with
  | none => simp [upper, hbound, Ty.object, Ty.bareVars] at hmem
  | some t =>
    have hupper : c.upper v = t := by rw [upper, hbound, Option.getD_some]
    cases hslot : v.slot with
    | param i =>
      simp only [bound?, hslot, Option.bind_eq_some_iff, Option.map_eq_some_iff] at hbound
      obtain ⟨d, hfind, p, hp, rfl⟩ := hbound
      have hname : d.name = v.decl := by simpa using List.find?_some hfind
      -- the parameter of the declaration in place of the variable, which may have another name
      let u : TypeVar := ⟨d.name, p.name, .param i⟩
      have hu : u ∈ d.vars := by
        obtain ⟨hi, rfl⟩ := List.getElem?_eq_some_iff.1 hp
        exact List.mem_mapIdx.2 ⟨i, hi, rfl⟩
      have hupper' : c.upper u = c.upper v := by simp [upper, bound?, u, hslot, hname]
      refine .inl ⟨u, ?_, List.mem_map_of_mem ?_⟩
      · exact List.mem_flatMap.2 ⟨d, List.mem_of_find?_eq_some hfind, hu⟩
      · rwa [boundVars, hupper']
    | free n =>
      simp only [bound?, hslot] at hbound
      exact .inr ⟨t, List.mem_of_getElem? hbound, List.mem_map_of_mem (hupper ▸ hmem)⟩

/-! ### The search and its end -/

/-- A search on the way up: the keys of the variables entered, and the types left to look at, newest
first. -/
structure Climb where
  entered : List VarKey
  stack : List Ty

namespace Climb

/-- The search that looks for a variable on the way up from itself. -/
def start (c : Catalog) (v : TypeVar) : Climb := ⟨[], [c.upper v]⟩

/-- One turn of the search for a key: an answer, or what is left of the search. -/
def turn (c : Catalog) (goal : VarKey) : Climb → Bool ⊕ Climb
  | ⟨_, []⟩ => .inl false
  | ⟨entered, .inter _ members :: rest⟩ => .inr ⟨entered, members.reverse ++ rest⟩
  | ⟨entered, .var (.declared v) :: rest⟩ =>
    if v.key = goal then .inl true
    else if v.key ∈ entered then .inr ⟨entered, rest⟩
    else .inr ⟨v.key :: entered, c.upper v :: rest⟩
  | ⟨entered, _ :: rest⟩ => .inr ⟨entered, rest⟩

/-- The search comes to an end with the answer, however many turns it takes. -/
inductive Ends (c : Catalog) (goal : VarKey) : Climb → Bool → Prop
  | answer {x : Climb} {b : Bool} : x.turn c goal = .inl b → Ends c goal x b
  | turn {x y : Climb} {b : Bool} : x.turn c goal = .inr y → Ends c goal y b → Ends c goal x b

/-- **A search has one answer.** -/
theorem Ends.unique {c : Catalog} {goal : VarKey} {x : Climb} {b b' : Bool} (h : Ends c goal x b)
    (h' : Ends c goal x b') : b = b' := by
  induction h with
  | answer hb =>
    cases h' with
    | answer hb' => exact Sum.inl.inj (hb.symm.trans hb')
    | turn hy _ => cases hb.symm.trans hy
  | turn hy _ ih =>
    cases h' with
    | answer hb' => cases hb'.symm.trans hy
    | turn hy' h' =>
      obtain rfl := Sum.inr.inj (hy.symm.trans hy')
      exact ih h'

/-- Taking an intersection apart makes the stack smaller. -/
theorem sizeOf_stack (members rest : List Ty) :
    sizeOf (members.reverse ++ rest) + 1 = sizeOf members + sizeOf rest := by
  have happend (as bs : List Ty) : sizeOf (as ++ bs) + 1 = sizeOf as + sizeOf bs := by
    induction as with
    | nil => simp [Nat.add_comm]
    | cons a as ih => simp only [List.cons_append, List.cons.sizeOf_spec]; omega
  have hreverse : sizeOf members.reverse = sizeOf members := by
    induction members with
    | nil => rfl
    | cons t ts ih =>
      have := happend ts.reverse [t]
      simp only [List.reverse_cons, List.cons.sizeOf_spec, List.nil.sizeOf_spec] at this ⊢
      omega
  rw [happend, hreverse]

/-- The variables that stand bare in the types on a stack, in the order in which the search comes to
them. -/
def ahead (stack : List Ty) : List TypeVar := stack.flatMap fun t => t.bareVars.reverse

/-- What is ahead is what stands bare in the newest type, and then in the others. -/
theorem ahead_cons (t : Ty) (rest : List Ty) : ahead (t :: rest) = t.bareVars.reverse ++ ahead rest :=
  List.flatMap_cons ..

/-- Taking an intersection apart leaves what is ahead. -/
theorem ahead_members (site : Site) (members rest : List Ty) :
    ahead (members.reverse ++ rest) = ahead (.inter site members :: rest) := by
  have hall : Ty.bareVarsAll members = members.flatMap Ty.bareVars := by
    induction members with
    | nil => rfl
    | cons t ts ih => rw [Ty.bareVarsAll, ih, List.flatMap_cons]
  rw [ahead_cons, Ty.bareVars, hall, List.reverse_flatMap]
  exact List.flatMap_append

variable {c : Catalog} {goal : VarKey}

/-- **Every search comes to an end**, with the answer of the walk that may enter the keys that were not
entered. Each turn takes a type apart, or enters one of the keys that the catalog knows. -/
theorem ends_climbs {keys : List VarKey} (hkeys : ∀ v w, c.Bounds w v → w.key ∈ keys) :
    ∀ (remaining entered : List VarKey) (stack : List Ty),
      (∀ k, k ∈ remaining ↔ k ∈ keys ∧ k ∉ entered) → (∀ v ∈ ahead stack, v.key ∈ keys) →
        Ends c goal ⟨entered, stack⟩ (c.climbs goal remaining (ahead stack))
  | remaining, entered, [], _, _ => by
    rw [ahead, List.flatMap_nil, climbs_nil]
    exact .answer rfl
  | remaining, entered, .inter site members :: rest, hremaining, hstack => by
    have hsize := sizeOf_stack members rest
    have hless : sizeOf (members.reverse ++ rest) < sizeOf (Ty.inter site members :: rest) := by
      simp only [List.cons.sizeOf_spec, Ty.inter.sizeOf_spec]
      omega
    rw [← ahead_members] at hstack ⊢
    exact .turn rfl (ends_climbs hkeys remaining entered _ hremaining hstack)
  | remaining, entered, .var (.declared v) :: rest, hremaining, hstack => by
    have hahead : ahead (.var (.declared v) :: rest) = v :: ahead rest := ahead_cons ..
    have hrest : ∀ w ∈ ahead rest, w.key ∈ keys := fun w hw =>
      hstack w (hahead ▸ List.mem_cons_of_mem _ hw)
    have hv : v.key ∈ keys := hstack v (hahead ▸ List.mem_cons_self)
    rw [hahead, climbs_cons]
    split
    · next hgoal => exact .answer (by rw [turn, if_pos hgoal])
    · next hgoal =>
      split
      · next hmem =>
        have hentered : v.key ∉ entered := ((hremaining _).1 hmem).2
        have hless := without_length_lt hmem
        refine .turn (y := ⟨v.key :: entered, c.upper v :: rest⟩)
          (by rw [turn, if_neg hgoal, if_neg hentered]) ?_
        refine ends_climbs hkeys (without remaining v.key) _ (c.upper v :: rest) (fun k => ?_)
          fun w hw => ?_
        · rw [mem_without, hremaining, List.mem_cons]
          tauto
        · rw [ahead_cons, List.mem_append, List.mem_reverse] at hw
          exact hw.elim (hkeys v w) (hrest w)
      · next hmem =>
        have hentered : v.key ∈ entered := by
          by_contra hnot
          exact hmem ((hremaining _).2 ⟨hv, hnot⟩)
        refine .turn (y := ⟨entered, rest⟩) (by rw [turn, if_neg hgoal, if_pos hentered]) ?_
        exact ends_climbs hkeys remaining entered rest hremaining hrest
  -- no variable stands bare in any other type
  | remaining, entered, .prim _ :: rest, hremaining, hstack =>
    .turn rfl (ends_climbs hkeys remaining entered rest hremaining hstack)
  | remaining, entered, .null :: rest, hremaining, hstack =>
    .turn rfl (ends_climbs hkeys remaining entered rest hremaining hstack)
  | remaining, entered, .nominal _ _ _ :: rest, hremaining, hstack =>
    .turn rfl (ends_climbs hkeys remaining entered rest hremaining hstack)
  | remaining, entered, .array _ :: rest, hremaining, hstack =>
    .turn rfl (ends_climbs hkeys remaining entered rest hremaining hstack)
  | remaining, entered, .var (.captured _) :: rest, hremaining, hstack =>
    .turn rfl (ends_climbs hkeys remaining entered rest hremaining hstack)
termination_by remaining _ stack => (remaining.length, sizeOf stack)

/-- The search up from a variable comes to an end, with the answer that says whether the variable is bounded
by itself. -/
theorem ends (c : Catalog) (v : TypeVar) {b : Bool} :
    Ends c v.key (start c v) b ↔ b = c.selfBounded v := by
  have hahead : ahead [c.upper v] = (c.boundVars v).reverse := by
    rw [ahead_cons]
    exact List.append_nil _
  have hkeys : ∀ u w, c.Bounds w u → w.key ∈ (c.boundVars v).map TypeVar.key ++ c.boundKeys :=
    fun u w hw => List.mem_append_right _ (key_mem_boundKeys hw)
  have hends : Ends c v.key (start c v) (c.selfBounded v) := by
    rw [selfBounded, ← hahead]
    refine ends_climbs hkeys _ [] [c.upper v] (fun k => ?_) fun w hw => hkeys v w ?_
    · simp only [List.not_mem_nil, not_false_eq_true, and_true]
    · rwa [hahead, List.mem_reverse] at hw
  exact ⟨fun h => h.unique hends, fun h => h ▸ hends⟩

end Climb

/-! ### What the search finds -/

/-- **Who is bounded by itself leads back to itself**, in one or more steps, as far as declaration and name
tell variables. -/
theorem selfBounded_sound {c : Catalog} {v : TypeVar} (h : c.selfBounded v = true) : c.LeadsBack v := by
  obtain ⟨u, hu, w, hw, hkey⟩ := c.climbs_sound h
  exact ⟨w, .head' (stepsTo_iff.2 (List.mem_reverse.1 hu)) (steps_iff.1 hw), hkey⟩

/-- The steps from two variables of equal bounds lead to variables of the same keys. -/
theorem StepsTo.of_equal {c : Catalog} {u x w : TypeVar} (h : c.StepsTo u w)
    (hbounds : (c.upper u).equal (c.upper x) = true) : ∃ w', c.StepsTo x w' ∧ w'.key = w.key := by
  have hkeys := Ty.bareVars_of_sameShape (Ty.equal_eq_sameShape _ _ ▸ hbounds)
  have hmem : w.key ∈ (c.upper x).bareVars.map TypeVar.key :=
    hkeys ▸ List.mem_map_of_mem (Ty.bare_iff.1 h)
  obtain ⟨w', hw', hkey⟩ := List.mem_map.1 hmem
  exact ⟨w', Ty.bare_iff.2 hw', hkey⟩

/-- **Who leads back to itself is bounded by itself**, where variables of one key have equal bounds. Without
finding the variable, the search would have entered the key of everything that is reached. -/
theorem selfBounded_complete {c : Catalog} {v : TypeVar} (hagree : c.BoundsAgree v)
    (h : c.LeadsBack v) : c.selfBounded v = true := by
  by_contra hself
  rw [Bool.not_eq_true] at hself
  obtain ⟨S, hreached, hclosed⟩ := c.climbs_entered hself
  have hsteps : ∀ x, S x → Relation.TransGen c.StepsTo v x := by
    intro x hx
    obtain ⟨u, hu, hxu⟩ := hreached x hx
    exact .head' (stepsTo_iff.2 (List.mem_reverse.1 hu)) (steps_iff.1 hxu)
  have hentered : ∀ w, Relation.TransGen c.StepsTo v w →
      w.key ≠ v.key ∧ ∃ x, S x ∧ x.key = w.key := by
    intro w hw
    induction hw with
    | single hw =>
      have hmem := stepsTo_iff.1 hw
      obtain ⟨hne, hin⟩ := hclosed _ (.inl (List.mem_reverse.2 hmem))
      exact ⟨hne, hin (List.mem_append_left _ (List.mem_map_of_mem hmem))⟩
    | @tail u w hu hw ih =>
      obtain ⟨-, x, hx, hkey⟩ := ih
      -- the variable of this key that was entered need not be the one that was reached
      obtain ⟨w', hw', hkey'⟩ := hw.of_equal (hagree u x hu (hsteps x hx) hkey.symm)
      have hmem := stepsTo_iff.1 hw'
      obtain ⟨hne, hin⟩ := hclosed w' (.inr ⟨x, hx, hmem⟩)
      exact hkey' ▸ ⟨hne, hin (List.mem_append_right _ (key_mem_boundKeys hmem))⟩
  obtain ⟨w, hw, hkey⟩ := h
  exact (hentered w hw).1 hkey

/-- **Variables bounded by themselves are found.** The search comes to an end in every catalog, with one
answer. If that is yes, the variable leads back to itself; and where the variables that are reached from it
agree on their bounds as far as they have one key, it is yes exactly if the variable does. -/
theorem selfBounded_exact (c : Catalog) (v : TypeVar) :
    (∀ b, Climb.Ends c v.key (Climb.start c v) b ↔ b = c.selfBounded v) ∧
      (c.selfBounded v = true → c.LeadsBack v) ∧
        (c.BoundsAgree v → (c.selfBounded v = true ↔ c.LeadsBack v)) := by
  refine ⟨fun _ => Climb.ends c v, selfBounded_sound, fun hagree => ?_⟩
  constructor
  · exact selfBounded_sound
  · exact selfBounded_complete hagree

/-- In `G<A extends B, B extends Object & C, C extends B>` the bounds lead round between `B` and `C`, and
never back to `A`. -/
theorem selfBounded_exact_detour :
    let a : TypeVar := ⟨"G", "A", .param 0⟩
    let b : TypeVar := ⟨"G", "B", .param 1⟩
    let c : TypeVar := ⟨"G", "C", .param 2⟩
    let known : Catalog := { decls := [{ name := "G", params := [⟨"A", .var (.declared b)⟩,
      ⟨"B", .inter ⟨.bound "G" 1, [0]⟩ [.object, .var (.declared c)]⟩, ⟨"C", .var (.declared b)⟩] }] }
    known.BoundsAgree a ∧ Climb.Ends known a.key (Climb.start known a) false ∧ ¬ known.LeadsBack a ∧
      Climb.Ends known b.key (Climb.start known b) true ∧ known.LeadsBack b := by
  intro a b c known
  obtain ⟨hends, -, hback⟩ := selfBounded_exact known a
  obtain ⟨hends', hback', -⟩ := selfBounded_exact known b
  have hagree : known.BoundsAgree a := .of_closed [b, c] (by decide +kernel) (by decide +kernel)
  have hself : known.selfBounded a = false := by decide +kernel
  have hself' : known.selfBounded b = true := by decide +kernel
  refine ⟨hagree, (hends _).2 hself.symm, fun h => ?_, (hends' _).2 hself'.symm, hback' hself'⟩
  exact Bool.noConfusion (hself.symm.trans ((hback hagree).2 h))

/-- In `G<V extends W & W', W extends V>`, where `W'` has the declaration and the name of `W` but another
bound, `V` leads to `W` and `W` back to `V`. The search enters `W'` first, and passes `W` over. -/
theorem selfBounded_misses :
    let v : TypeVar := ⟨"G", "V", .param 0⟩
    let w : TypeVar := ⟨"G", "W", .param 1⟩
    let w' : TypeVar := ⟨"G", "W", .free 0⟩
    let known : Catalog := {
      decls := [{ name := "G", params := [
        ⟨"V", .inter ⟨.bound "G" 0, [0]⟩ [.var (.declared w), .var (.declared w')]⟩,
        ⟨"W", .var (.declared v)⟩] }]
      free := [.object] }
    Relation.TransGen known.StepsTo v v ∧ known.selfBounded v = false := by
  intro v w w' known
  have hw : known.StepsTo v w := by decide +kernel
  have hv : known.StepsTo w v := by decide +kernel
  exact ⟨.tail (.single hw) hv, by decide +kernel⟩

end Catalog

/-! ### What registration refuses -/

/-- **The parameters of a definition pass exactly if none of them leads back to itself.** What their texts
read as agrees on bounds: in every text a name means one and the same parameter. -/
theorem Definition.selfBounded?_eq_none_iff [Alphabet] {d : Definition} {known : String → Bool} {i : Nat}
    {params : List Parameter} (h : d.readParams known i d.params = .ok params) :
    d.selfBounded? params = none ↔
      ∀ v ∈ d.vars, ¬ (Declaration.mk d.name params []).alone.LeadsBack v := by
  obtain ⟨hnames, hread⟩ := readParams_ok h
  let decl : Declaration := ⟨d.name, params, []⟩
  have hvars : decl.vars = d.vars := vars_eq [] hnames
  have hwritten : ∀ p ∈ decl.params, Expr.Written decl.vars p.upper := by
    intro p hp
    obtain ⟨j, p', -, hparam⟩ := hread p hp
    exact hvars ▸ readParam_written hparam
  have hexact : ∀ v ∈ d.vars, decl.alone.selfBounded v = true ↔ decl.alone.LeadsBack v := by
    intro v hv
    have hagree := (Declaration.encloses_of_written hwritten).boundsAgree (hvars.symm ▸ hv)
    exact ⟨Catalog.selfBounded_sound, Catalog.selfBounded_complete hagree⟩
  rw [selfBounded?, List.find?_eq_none]
  exact forall₂_congr fun v hv => not_congr (hexact v hv)

end Generics
