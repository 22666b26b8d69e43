/-
# What substitution changes

Substitution hands back the type that it was given, and builds nothing, exactly if each variable that
occurs in it is given no type or given itself (`Ty.subst?_eq_none_iff`). Otherwise it builds anew what has
changed and keeps the rest where it stands: the list of arguments is copied when the first one changes, and
what that copy ends up with is each argument replaced on its own (`Arg.sweep_eq`, `Arg.substAll_eq_mapIdx`).
A constraint tells from this whether it was moved (`Constraint.replace_stays_iff`). All of it together is
`Query.replace_exact`.

Two substitutions after each other are one, that gives to each variable what the first one gives, with the
second one applied to it, and otherwise what the second one gives (`Subst.andThen`). Intersections are taken
apart at different times, and still come out alike: `subst_composes`.
-/

import Generics.Inference.Constraint
import Generics.Proofs.Equality

namespace Generics

/-! ### What stays -/

/-- The substitution leaves the variable as it is. -/
def Subst.Leaves (σ : Subst) (v : Var) : Prop := σ.lookup v = none ∨ σ.lookup v = some (.var v)

/-- A variable is left as it is if the substitution has nothing else for it. -/
theorem Subst.leaves_iff {σ : Subst} {v : Var} :
    σ.Leaves v ↔ (σ.lookup v).filter (· ≠ .var v) = none := by
  rw [Leaves]
  cases h : σ.lookup v with
  | none => simp
  | some u => by_cases hu : u = .var v <;> simp [Option.filter, hu]

mutual
/-- **A type is handed back exactly if all of its variables are left as they are.** -/
theorem Ty.subst?_eq_none_iff (σ : Subst) :
    ∀ (site : Site) (t : Ty), t.subst? σ site = none ↔ ∀ v ∈ t.vars, σ.Leaves v
  | _, .prim p => by simp [Ty.subst?, Ty.vars]
  | _, .null => by simp [Ty.subst?, Ty.vars]
  | site, .nominal st d as => by
    rw [Ty.subst?, Option.map_eq_none_iff, Arg.substAll?_eq_none_iff σ site 0 as, Ty.vars]
  | site, .array e => by
    rw [Ty.subst?, Option.map_eq_none_iff, Ty.subst?_eq_none_iff σ site e, Ty.vars]
  | site, .inter st ms => by
    rw [Ty.subst?, Option.map_eq_none_iff, Ty.substAll?_eq_none_iff σ site 0 ms, Ty.vars]
  | _, .var v => by
    rw [Ty.subst?, ← Subst.leaves_iff, Ty.vars, List.forall_mem_singleton]

/-- **Nothing is replaced in an argument** exactly if all its variables are left alone. -/
theorem Arg.subst?_eq_none_iff (σ : Subst) :
    ∀ (site : Site) (a : Arg), a.subst? σ site = none ↔ ∀ v ∈ a.vars, σ.Leaves v
  | site, .type t => by
    rw [Arg.subst?, Option.map_eq_none_iff, Ty.subst?_eq_none_iff σ site t, Arg.vars]
  | site, .wild u l => by
    rw [Arg.vars, List.forall_mem_append, ← Ty.subst?_eq_none_iff σ (site.part 0) u,
      ← Ty.subst?_eq_none_iff σ (site.part 1) l, Arg.subst?]
    cases u.subst? σ (site.part 0) <;> cases l.subst? σ (site.part 1) <;> simp

/-- The same for the members of an intersection. -/
theorem Ty.substAll?_eq_none_iff (σ : Subst) (site : Site) :
    ∀ (i : Nat) (ts : List Ty),
      Ty.substAll? σ site i ts = none ↔ ∀ v ∈ Ty.varsAll ts, σ.Leaves v
  | _, [] => by simp [Ty.substAll?, Ty.varsAll]
  | i, t :: ts => by
    rw [Ty.varsAll, List.forall_mem_append, ← Ty.subst?_eq_none_iff σ (site.part i) t,
      ← Ty.substAll?_eq_none_iff σ site (i + 1) ts, Ty.substAll?]
    cases t.subst? σ (site.part i) <;> cases Ty.substAll? σ site (i + 1) ts <;> simp

/-- The same for arguments. -/
theorem Arg.substAll?_eq_none_iff (σ : Subst) (site : Site) :
    ∀ (i : Nat) (as : List Arg),
      Arg.substAll? σ site i as = none ↔ ∀ v ∈ Arg.varsAll as, σ.Leaves v
  | _, [] => by simp [Arg.substAll?, Arg.varsAll]
  | i, a :: as => by
    rw [Arg.varsAll, List.forall_mem_append, ← Arg.subst?_eq_none_iff σ (site.part i) a,
      ← Arg.substAll?_eq_none_iff σ site (i + 1) as, Arg.substAll?]
    cases a.subst? σ (site.part i) <;> cases Arg.substAll? σ site (i + 1) as <;> simp
end

/-! ### Arguments in their places -/

/-- **Each argument is replaced on its own, where it stands.** -/
theorem Arg.substAll_eq_mapIdx (σ : Subst) (site : Site) (i : Nat) (as : List Arg) :
    (Arg.substAll? σ site i as).getD as = as.mapIdx fun k a => a.subst σ (site.part (i + k)) := by
  induction as generalizing i with
  | nil => rfl
  | cons a as ih =>
    have hnext : (as.mapIdx fun k a => a.subst σ (site.part (i + (k + 1)))) =
        (Arg.substAll? σ site (i + 1) as).getD as := by
      rw [ih]
      simp only [Nat.add_right_comm, Nat.add_assoc]
    rw [List.mapIdx_cons, hnext, Arg.subst, Nat.add_zero, Arg.substAll?]
    cases a.subst? σ (site.part i) <;> cases Arg.substAll? σ site (i + 1) as <;> rfl

/-- One pass over the arguments, from the first to the last. `passed` are the arguments behind it;
`copy?` is what was written so far, begun with a copy of those at the first argument that changes. -/
def Arg.sweep (σ : Subst) (site : Site) (passed : List Arg) (copy? : Option (List Arg)) :
    List Arg → Option (List Arg)
  | [] => copy?
  | a :: as =>
    match copy?, a.subst? σ (site.part passed.length) with
    | none, none => Arg.sweep σ site (passed ++ [a]) none as
    | none, some b => Arg.sweep σ site (passed ++ [a]) (some (passed ++ [b])) as
    | some copy, b? => Arg.sweep σ site (passed ++ [a]) (some (copy ++ [b?.getD a])) as

/-- Once the copy is begun, every argument is written to it, whether it changes or not. -/
theorem Arg.sweep_some (σ : Subst) (site : Site) (passed copy as : List Arg) :
    Arg.sweep σ site passed (some copy) as =
      some (copy ++ (Arg.substAll? σ site passed.length as).getD as) := by
  induction as generalizing passed copy with
  | nil => simp [Arg.sweep, Arg.substAll?]
  | cons a as ih =>
    rw [Arg.sweep, Arg.substAll?, ih, List.length_append, List.length_singleton]
    cases a.subst? σ (site.part passed.length) <;>
      cases Arg.substAll? σ site (passed.length + 1) as <;> simp

/-- **The pass writes what replacing every argument on its own gives**, and nothing if none changes. -/
theorem Arg.sweep_eq (σ : Subst) (site : Site) (passed as : List Arg) :
    Arg.sweep σ site passed none as =
      (Arg.substAll? σ site passed.length as).map (passed ++ ·) := by
  induction as generalizing passed with
  | nil => rfl
  | cons a as ih =>
    have hlength : (passed ++ [a]).length = passed.length + 1 := by simp
    rw [Arg.substAll?]
    cases ha : a.subst? σ (site.part passed.length) with
    | none =>
      simp only [Arg.sweep, ha, ih, hlength]
      cases Arg.substAll? σ site (passed.length + 1) as <;> simp
    | some b =>
      simp only [Arg.sweep, ha, Arg.sweep_some, hlength]
      cases Arg.substAll? σ site (passed.length + 1) as <;> simp

/-! ### What is answered -/

namespace Query

/-- The memory after a substitution: a type was built if something changed. -/
def noted (m : Memory) : Option Ty → Memory
  | none => m
  | some _ => { m with built := m.built + 1 }

/-- The memory is as before exactly if no type was built. -/
theorem noted_eq_iff {m : Memory} {r : Option Ty} : noted m r = m ↔ r = none := by
  cases r with
  | none => simp [noted]
  | some t =>
    refine ⟨fun h => ?_, nofun⟩
    have hbuilt : m.built + 1 = m.built := congrArg Memory.built h
    omega

/-- Replacing variables answers whatever substitution at the next site gives. -/
theorem replace?_answers_subst (σ : Subst) (t : Ty) (m : Memory) :
    (replace? σ t).Answers m (t.subst? σ (nextSite m)) (noted m (t.subst? σ (nextSite m))) := by
  unfold replace?
  split
  · next hempty =>
    have hnone : t.subst? σ (nextSite m) = none := by
      refine (Ty.subst?_eq_none_iff σ _ t).2 fun v _ => .inl ?_
      rw [Subst.lookup, List.isEmpty_iff.1 hempty, List.find?_nil, Option.map_none]
    rw [hnone]
    exact answers_pure.2 ⟨rfl, rfl⟩
  · refine answers_bind.2 ⟨m, m, answers_get.2 ⟨rfl, rfl⟩, ?_⟩
    cases t.subst? σ (nextSite m) with
    | none => exact answers_pure.2 ⟨rfl, rfl⟩
    | some t' => exact answers_bind.2 ⟨(), _, answers_modify.2 rfl, answers_pure.2 ⟨rfl, rfl⟩⟩

/-- **Replacing variables answers the substituted type**, and notes whether it was built. -/
theorem replace_answers_subst (σ : Subst) (t : Ty) (m : Memory) :
    (replace σ t).Answers m (t.subst σ (nextSite m)) (noted m (t.subst? σ (nextSite m))) :=
  answers_bind.2 ⟨_, _, replace?_answers_subst σ t m, answers_pure.2 ⟨rfl, rfl⟩⟩

/-- Nothing is built exactly if all variables are left as they are. -/
theorem replace?_none_iff (σ : Subst) (t : Ty) (m : Memory) :
    (replace? σ t).Answers m none m ↔ ∀ v ∈ t.vars, σ.Leaves v := by
  rw [← Ty.subst?_eq_none_iff σ (nextSite m) t]
  refine ⟨fun h => ((replace?_answers_subst σ t m).unique h).1, fun h => ?_⟩
  have hanswers := replace?_answers_subst σ t m
  rwa [h] at hanswers

/-- The very type is answered, and nothing built, exactly if its variables are left alone. -/
theorem replace_self_iff (σ : Subst) (t : Ty) (m : Memory) :
    (replace σ t).Answers m t m ↔ ∀ v ∈ t.vars, σ.Leaves v := by
  rw [← Ty.subst?_eq_none_iff σ (nextSite m) t]
  refine ⟨fun h => noted_eq_iff.1 ((replace_answers_subst σ t m).unique h).2, fun h => ?_⟩
  have hanswers := replace_answers_subst σ t m
  rwa [Ty.subst, h] at hanswers

end Query

namespace Inference

open Query

/-- A constraint reduced from another one remembers it, and so is another one. -/
theorem Constraint.child_ne (c : Constraint) (lhs : Ty) (rel : Relation) (rhs : Ty) :
    c.child lhs rel rhs ≠ c := by
  intro h
  have hlength : c.origin.length + 1 = c.origin.length := congrArg (fun c => c.origin.length) h
  omega

/-- **A constraint stays what it was exactly if all variables on both sides are left as they are**; else
it is a new one that was reduced from it. -/
theorem Constraint.replace_stays_iff (σ : Subst) (c : Constraint) (m : Memory) :
    (c.replace σ).Answers m c m ↔ ∀ v ∈ c.lhs.vars ++ c.rhs.vars, σ.Leaves v := by
  rw [List.forall_mem_append, ← replace?_none_iff σ c.lhs m, ← replace?_none_iff σ c.rhs m]
  constructor
  · intro h
    obtain ⟨lhs, m₁, hlhs, h⟩ := answers_bind.1 h
    obtain ⟨rhs, m₂, hrhs, h⟩ := answers_bind.1 h
    match lhs, rhs, h with
    | none, none, h =>
      have hm₁ : m₁ = m := by
        obtain ⟨hnone, hnoted⟩ := hlhs.unique (replace?_answers_subst σ c.lhs m)
        rw [hnoted, ← hnone, noted]
      obtain ⟨-, rfl⟩ := answers_pure.1 h
      subst hm₁
      exact ⟨hlhs, hrhs⟩
    | some l, rhs, h => exact absurd (answers_pure.1 h).1.symm (c.child_ne _ _ _)
    | none, some r, h => exact absurd (answers_pure.1 h).1.symm (c.child_ne _ _ _)
  · rintro ⟨hlhs, hrhs⟩
    exact answers_bind.2 ⟨none, m, hlhs, answers_bind.2 ⟨none, m, hrhs, answers_pure.2 ⟨rfl, rfl⟩⟩⟩

end Inference

namespace Query

/-- **Substitution says exactly whether something changed, and gives the plain rebuild.** It hands back
the type and builds nothing exactly if every variable that occurs in the type is given no type or given
itself. In any case the answer equals the plain rebuild, in which every variable is replaced and every
intersection taken apart anew, if the type is flat, as types are that the library builds. The arguments of
an applied declaration are replaced one by one and keep their places; the pass that copies them when the
first one changes comes to the same. And a constraint is kept as it is exactly if both sides are. -/
theorem replace_exact (σ : Subst) (t : Ty) (m : Memory) :
    ((replace? σ t).Answers m none m ↔ ∀ v ∈ t.vars, σ.Leaves v) ∧
      ((replace σ t).Answers m t m ↔ ∀ v ∈ t.vars, σ.Leaves v) ∧
      (∃ t' m', (replace σ t).Answers m t' m' ∧
        (t.isFlat = true → t'.equal (t.rebuild σ.given) = true)) ∧
      (∀ site decl args, t = .nominal site decl args → ∃ site' m', (replace σ t).Answers m
        (.nominal site' decl (args.mapIdx fun i a => a.subst σ ((nextSite m).part i))) m') ∧
      (∀ args, Arg.sweep σ (nextSite m) [] none args = Arg.substAll? σ (nextSite m) 0 args) ∧
      ∀ c : Inference.Constraint,
        (c.replace σ).Answers m c m ↔ ∀ v ∈ c.lhs.vars ++ c.rhs.vars, σ.Leaves v := by
  refine ⟨replace?_none_iff σ t m, replace_self_iff σ t m, ?_, ?_, fun args => ?_,
    fun c => c.replace_stays_iff σ m⟩
  · refine ⟨_, _, replace_answers_subst σ t m, fun hflat => ?_⟩
    exact Ty.equal_of_sameShape (Ty.sameShape_subst σ (nextSite m) hflat)
  · rintro site decl args rfl
    obtain ⟨site', hsubst⟩ : ∃ site', (Ty.nominal site decl args).subst σ (nextSite m) =
        .nominal site' decl ((Arg.substAll? σ (nextSite m) 0 args).getD args) := by
      rw [Ty.subst, Ty.subst?]
      cases Arg.substAll? σ (nextSite m) 0 args with
      | none => exact ⟨site, rfl⟩
      | some bs => exact ⟨nextSite m, rfl⟩
    have hargs := Arg.substAll_eq_mapIdx σ (nextSite m) 0 args
    simp only [Nat.zero_add] at hargs
    have hanswers := replace_answers_subst σ (.nominal site decl args) m
    rw [hsubst, hargs] at hanswers
    exact ⟨site', _, hanswers⟩
  · rw [Arg.sweep_eq, List.length_nil]
    simp only [List.nil_append, Option.map_id']

/-- `Map<E, ? super F & E>`, where `E` is given `Number & Comparable<F>` and `F` is given itself: the
intersection is taken apart. `Map<F, F>` is handed back. -/
theorem replace_exact_map :
    let e : Var := .declared ⟨"Map", "E", .free 0⟩
    let f : Var := .declared ⟨"Map", "F", .free 1⟩
    let t : Ty := .nominal ⟨.given 0, [0]⟩ "Map" [
      .type (.var e), .wild .object (.inter ⟨.given 0, [9]⟩ [.var f, .var e])]
    let σ : Subst := .insertAll {} [
      (e, .inter ⟨.given 1, [0]⟩ [.nominal ⟨.given 1, [1]⟩ "Number" [],
        .nominal ⟨.given 1, [2]⟩ "Comparable" [.type (.var f)]]), (f, .var f)]
    (¬ (replace? σ t).Answers {} none {}) ∧
      (∃ t' m', (replace σ t).Answers {} t' m' ∧ t'.equal (t.rebuild σ.given) = true) ∧
      (replace σ (.nominal ⟨.given 2, [0]⟩ "Map" [.type (.var f), .type (.var f)])).Answers {}
        (.nominal ⟨.given 2, [0]⟩ "Map" [.type (.var f), .type (.var f)]) {} := by
  intro e f t σ
  have hleaves : ¬ σ.Leaves e ∧ σ.Leaves f := by
    simp only [Subst.Leaves]
    decide +kernel
  have hvars : t.vars = [e, f, e] := by decide +kernel
  obtain ⟨hreports, -, hequal, -⟩ := replace_exact σ t {}
  refine ⟨fun h => hleaves.1 (hreports.1 h e (by rw [hvars]; decide)), ?_, ?_⟩
  · obtain ⟨t', m', hanswers, hrebuilt⟩ := hequal
    exact ⟨t', m', hanswers, hrebuilt (by decide +kernel)⟩
  · refine (replace_exact σ _ {}).2.1.2 fun v hv => ?_
    have hf : v = f := by simpa [Ty.vars, Arg.varsAll, Arg.vars] using hv
    exact hf ▸ hleaves.2

end Query

/-! ### One substitution after another -/

/-- The substitution that does what one does and then another: a variable is given what the first one
gives, with the second one applied to it, or else what the second one gives. -/
def Subst.andThen (σ τ : Subst) (site : Site) : Subst :=
  τ.insertAll (σ.entries.reverse.map fun entry => (entry.1, entry.2.subst τ site))

/-- What the composed substitution says of a variable: what the first one gives, with the second one
applied, or what the second one gives. -/
theorem Subst.lookup_andThen (σ τ : Subst) (site : Site) (v : Var) :
    (σ.andThen τ site).lookup v = ((σ.lookup v).map fun u => u.subst τ site).or (τ.lookup v) := by
  have hfirst : (σ.lookup v).map (fun u => u.subst τ site) =
      (σ.entries.find? fun entry => entry.1.key == v.key).map fun entry => entry.2.subst τ site := by
    rw [lookup, Option.map_map]
    rfl
  rw [andThen, lookup_insertAll, ← List.map_reverse, List.reverse_reverse, List.find?_map,
    Option.map_map, hfirst]
  rfl

/-- What the composed substitution puts in place is what the first one does, rebuilt by the second one.
-/
theorem Subst.image_andThen (σ τ : Subst) (site : Site) (v : Var) :
    (σ.andThen τ site).image v = (σ.image v).rebuild τ.image := by
  rw [image, image, lookup_andThen]
  cases σ.lookup v with
  | none => rfl
  | some u =>
    simp only [Option.map_some, Option.some_or, Option.getD_some, Ty.shape_subst, Ty.rebuild_shape]

/-- Flat substitutions compose to a flat one. -/
theorem Subst.IsFlat.andThen {σ τ : Subst} (hσ : σ.IsFlat) (hτ : τ.IsFlat) (site : Site) :
    (σ.andThen τ site).IsFlat := by
  intro v t ht
  rw [lookup_andThen] at ht
  cases hv : σ.lookup v with
  | none =>
    rw [hv] at ht
    exact hτ v t ht
  | some u =>
    rw [hv] at ht
    obtain rfl : u.subst τ site = t := Option.some.inj ht
    exact Ty.isFlat_subst hτ site (hσ v u hv)

/-- A substitution is flat if all its entries are. -/
theorem Subst.IsFlat.of_entries {σ : Subst} (h : ∀ entry ∈ σ.entries, entry.2.isFlat = true) :
    σ.IsFlat := by
  intro v t ht
  obtain ⟨entry, hentry, rfl⟩ := Option.map_eq_some_iff.1 ht
  exact h entry (List.mem_of_find?_eq_some hentry)

/-- Whatever is taken apart first, up to sites the same type comes out. -/
theorem Ty.shape_subst_subst (σ τ : Subst) (t : Ty) (site₁ site₂ site₃ site : Site) :
    ((t.subst σ site₁).subst τ site₂).shape = (t.subst (σ.andThen τ site) site₃).shape := by
  calc ((t.subst σ site₁).subst τ site₂).shape
    _ = (t.subst σ site₁).rebuild τ.image := Ty.shape_subst τ site₂ _
    _ = (t.subst σ site₁).shape.rebuild τ.image := (Ty.rebuild_shape _ _).symm
    _ = (t.rebuild σ.image).rebuild τ.image := by rw [Ty.shape_subst]
    _ = t.rebuild fun v => (σ.image v).rebuild τ.image := Ty.rebuild_rebuild _ _ t
    _ = t.rebuild (σ.andThen τ site).image := Ty.rebuild_congr fun v _ => (σ.image_andThen τ site v).symm
    _ = (t.subst (σ.andThen τ site) site₃).shape := (Ty.shape_subst _ site₃ t).symm

/-- **Substitution composes.** For flat types, one substitution after another gives what the substitution
gives that does both, and all that comes out is flat again. -/
theorem subst_composes {σ τ : Subst} (hσ : σ.IsFlat) (hτ : τ.IsFlat) {t : Ty} (ht : t.isFlat = true)
    (site₁ site₂ site₃ site : Site) :
    ((t.subst σ site₁).subst τ site₂).equal (t.subst (σ.andThen τ site) site₃) = true ∧
      (∀ v, (σ.andThen τ site).lookup v =
        ((σ.lookup v).map fun u => u.subst τ site).or (τ.lookup v)) ∧
      (t.subst σ site₁).isFlat = true ∧ ((t.subst σ site₁).subst τ site₂).isFlat = true ∧
      (t.subst (σ.andThen τ site) site₃).isFlat = true ∧ (σ.andThen τ site).IsFlat := by
  have hboth := hσ.andThen hτ site
  have hfirst := Ty.isFlat_subst hσ site₁ ht
  have hsecond := Ty.isFlat_subst hτ site₂ hfirst
  have honce := Ty.isFlat_subst hboth site₃ ht
  refine ⟨?_, σ.lookup_andThen τ site, hfirst, hsecond, honce, hboth⟩
  have hshape := Ty.shape_subst_subst σ τ t site₁ site₂ site₃ site
  exact Ty.equal_of_sameShape (Ty.sameShape_of_shape hsecond honce hshape)

/-- `List<? extends E & F> & E` with `F & G[]` for `E` and the top type for `F`, then `F & E` for `G` and
`Number & E` for `F`. -/
theorem subst_composes_list :
    let var (name : String) : Var := .declared ⟨"Map", name, .free 0⟩
    let inter (n : Nat) (ts : List Ty) : Ty := .inter ⟨.given n, [0]⟩ ts
    let e := var "E"
    let f := var "F"
    let g := var "G"
    let t := inter 0 [
      .nominal ⟨.given 0, [1]⟩ "List" [.wild (inter 1 [.var e, .var f]) .null], .var e]
    let σ : Subst := .insertAll {} [(e, inter 2 [.var f, .array (.var g)]), (f, .top)]
    let τ : Subst := .insertAll {} [(g, inter 3 [.var f, .var e]),
      (f, inter 4 [.nominal ⟨.given 4, [1]⟩ "Number" [], .var e])]
    let site : Site := ⟨.built 1, []⟩
    σ.IsFlat ∧ τ.IsFlat ∧ t.isFlat = true ∧
      ((t.subst σ site).subst τ site).equal (t.subst (σ.andThen τ site) site) = true ∧
      ((t.subst σ site).subst τ site).isFlat = true := by
  intro var inter e f g t σ τ site
  have hall : (∀ entry ∈ σ.entries, entry.2.isFlat = true) ∧
      (∀ entry ∈ τ.entries, entry.2.isFlat = true) ∧ t.isFlat = true := by decide +kernel
  obtain ⟨hσ, hτ, ht⟩ := hall
  have hσ := Subst.IsFlat.of_entries hσ
  have hτ := Subst.IsFlat.of_entries hτ
  obtain ⟨hequal, -, -, hflat, -⟩ := subst_composes hσ hτ ht site site site site
  exact ⟨hσ, hτ, ht, hequal, hflat⟩

end Generics
