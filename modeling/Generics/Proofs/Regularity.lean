/-
# Regular types

A type is regular if every declaration in it is declared and has no arguments or as many as
parameters, and no intersection is a member of an intersection. Two fragments are told apart:

| fragment | wildcards and intersections | primitives |
| --- | --- | --- |
| `plain` | none | anywhere |
| `full` | anywhere | as components of arrays only |

In both, a regular type with regular types in the place of its variables is regular
(`Ty.Regular.rebuild`, `Ty.Regular.subst`). `Setting.Regular` says that the supertypes and
bounds of all declarations are regular and written over the parameters of their own
declaration.
-/

import Generics.Proofs.Lineages
import Generics.Proofs.Rebuilding
import Generics.Query.Subtyping

namespace Generics

/-- Which types are looked at. -/
inductive Fragment
  /-- Types without wildcards and intersections. -/
  | plain
  /-- Types with primitives only as components of arrays. -/
  | full
deriving DecidableEq

/-- The declaration can be applied to so many arguments. -/
def Setting.Applies (s : Setting) (decl : String) (args : Nat) : Prop :=
  ∃ l, s.lineageOf decl = some l ∧ (args = 0 ∨ args = l.params.length)

mutual
/-- Every declaration in the type is applied to a right number of arguments, intersections are
flat, and the type belongs to the fragment. -/
def Ty.Regular (s : Setting) (k : Fragment) : Ty → Prop
  | .prim _ => k = .plain
  | .null => True
  | .nominal _ decl args => s.Applies decl args.length ∧ Arg.RegularAll s k args
  | .array elem => elem.isPrim = true ∨ elem.Regular s k
  | .inter _ members => k = .full ∧ Ty.RegularAll s k members
  | .var _ => True

/-- The argument is regular. -/
def Arg.Regular (s : Setting) (k : Fragment) : Arg → Prop
  | .type t => t.Regular s k
  | .wild upper lower => k = .full ∧ upper.Regular s k ∧ lower.Regular s k

/-- The members of an intersection are regular and no intersections. -/
def Ty.RegularAll (s : Setting) (k : Fragment) : List Ty → Prop
  | [] => True
  | t :: ts => (t.isInter = false ∧ t.Regular s k) ∧ Ty.RegularAll s k ts

/-- The arguments are regular. -/
def Arg.RegularAll (s : Setting) (k : Fragment) : List Arg → Prop
  | [] => True
  | a :: as => a.Regular s k ∧ Arg.RegularAll s k as
end

variable {s : Setting} {k : Fragment}

/-- Members are regular if each of them is, and none is an intersection. -/
theorem Ty.regularAll_iff {ts : List Ty} :
    Ty.RegularAll s k ts ↔ ∀ t ∈ ts, t.isInter = false ∧ t.Regular s k := by
  induction ts with
  | nil => simp [Ty.RegularAll]
  | cons t ts ih => simp [Ty.RegularAll, ih]

/-- Arguments are regular if each of them is. -/
theorem Arg.regularAll_iff {as : List Arg} :
    Arg.RegularAll s k as ↔ ∀ a ∈ as, a.Regular s k := by
  induction as with
  | nil => simp [Arg.RegularAll]
  | cons a as ih => simp [Arg.RegularAll, ih]

/-- What a regular type consists of is regular and no intersection. -/
theorem Ty.isInter_eq_false_of_mem_conjuncts {t c : Ty} (ht : t.Regular s k)
    (hc : c ∈ t.conjuncts) : c.isInter = false ∧ c.Regular s k := by
  cases t with
  | inter st ms =>
    rw [Ty.Regular] at ht
    exact Ty.regularAll_iff.1 ht.2 c hc
  | _ =>
    rw [Ty.conjuncts, List.mem_singleton] at hc
    subst hc
    exact ⟨rfl, ht⟩
    intro _ _ h
    cases h

/-- The parts of regular types make up a regular intersection. -/
theorem Ty.Regular.inter (hk : k = .full) (site : Site) {ts : List Ty}
    (h : ∀ t ∈ ts, t.Regular s k) : (Ty.inter site (ts.flatMap Ty.conjuncts)).Regular s k := by
  rw [Ty.Regular]
  refine ⟨hk, Ty.regularAll_iff.2 fun c hc => ?_⟩
  obtain ⟨t, ht, hc⟩ := List.mem_flatMap.1 hc
  exact Ty.isInter_eq_false_of_mem_conjuncts (h t ht) hc

/-- Joining regular types gives a regular type. -/
theorem Ty.Regular.meet (hk : k = .full) {site : Site} {ts : List Ty}
    (h : ∀ t ∈ ts, t.Regular s k) : (Ty.meet site ts).Regular s k := by
  have hi := Ty.Regular.inter hk site h
  rw [Ty.meet]
  split
  · simp [Ty.top, Ty.Regular, Ty.RegularAll, hk]
  · next hts => exact hi

/-- The meeting of regular bounds is regular. -/
theorem Ty.Regular.meetBounds (hk : k = .full) {site : Site} {a b : Ty} (ha : a.Regular s k)
    (hb : b.Regular s k) : (Ty.meetBounds site a b).Regular s k := by
  rw [Ty.meetBounds]
  split
  · exact hb
  · split
    · exact ha
    · exact Ty.Regular.meet hk fun t ht => by
        rcases List.mem_cons.1 ht with rfl | ht
        · exact ha
        · rw [List.mem_singleton.1 ht]; exact hb

/-- In the full fragment a regular type is no primitive. -/
theorem Ty.Regular.not_prim {t : Ty} (h : t.Regular s .full) : t.isPrim = false := by
  cases t with
  | prim p => rw [Ty.Regular] at h; cases h
  | _ => rfl

mutual
/-- **Regular types in the place of variables keep a type regular.** -/
theorem Ty.Regular.rebuild {f : Var → Ty} :
    ∀ {t : Ty}, t.Regular s k → (∀ v ∈ t.vars, (f v).Regular s k) → (t.rebuild f).Regular s k
  | .prim p, h, _ => h
  | .null, h, _ => h
  | .nominal st d as, h, hf => by
    rw [Ty.Regular] at h
    rw [Ty.rebuild, Ty.Regular, Arg.rebuildAll_eq_map, List.length_map, ← Arg.rebuildAll_eq_map]
    exact ⟨h.1, Arg.RegularAll.rebuild h.2 (by simpa only [Ty.vars] using hf)⟩
  | .array e, h, hf => by
    rw [Ty.Regular] at h
    rw [Ty.rebuild, Ty.Regular]
    rcases h with h | h
    · left
      cases e <;> first | exact h | cases h
    · exact .inr (Ty.Regular.rebuild h (by simpa only [Ty.vars] using hf))
  | .inter st ms, h, hf => by
    rw [Ty.Regular] at h
    rw [Ty.rebuild, Ty.Regular]
    exact ⟨h.1, Ty.RegularAll.rebuild h.2 (by simpa only [Ty.vars] using hf)⟩
  | .var v, _, hf => hf v (by simp [Ty.vars])

/-- Putting regular types in a regular argument gives a regular argument. -/
theorem Arg.Regular.rebuild {f : Var → Ty} :
    ∀ {a : Arg}, a.Regular s k → (∀ v ∈ a.vars, (f v).Regular s k) → (a.rebuild f).Regular s k
  | .type t, h, hf => by
    rw [Arg.Regular] at h
    rw [Arg.rebuild, Arg.Regular]
    exact Ty.Regular.rebuild h (by simpa only [Arg.vars] using hf)
  | .wild u l, h, hf => by
    rw [Arg.Regular] at h
    simp only [Arg.vars, List.mem_append] at hf
    rw [Arg.rebuild, Arg.Regular]
    exact ⟨h.1, Ty.Regular.rebuild h.2.1 fun v hv => hf v (.inl hv),
      Ty.Regular.rebuild h.2.2 fun v hv => hf v (.inr hv)⟩

/-- Putting regular types in regular members gives regular members. -/
theorem Ty.RegularAll.rebuild {f : Var → Ty} :
    ∀ {ts : List Ty}, Ty.RegularAll s k ts → (∀ v ∈ Ty.varsAll ts, (f v).Regular s k) →
      Ty.RegularAll s k (Ty.rebuildParts f ts)
  | [], _, _ => by rw [Ty.rebuildParts, Ty.RegularAll]; trivial
  | t :: ts, h, hf => by
    rw [Ty.RegularAll] at h
    simp only [Ty.varsAll, List.mem_append] at hf
    have ht := Ty.Regular.rebuild h.1.2 fun v hv => hf v (.inl hv)
    have hts := Ty.RegularAll.rebuild h.2 fun v hv => hf v (.inr hv)
    rw [Ty.rebuildParts, Ty.regularAll_iff]
    intro c hc
    rcases List.mem_append.1 hc with hc | hc
    · exact Ty.isInter_eq_false_of_mem_conjuncts ht hc
    · exact Ty.regularAll_iff.1 hts c hc

/-- Putting regular types in regular arguments gives regular arguments. -/
theorem Arg.RegularAll.rebuild {f : Var → Ty} :
    ∀ {as : List Arg}, Arg.RegularAll s k as → (∀ v ∈ Arg.varsAll as, (f v).Regular s k) →
      Arg.RegularAll s k (Arg.rebuildAll f as)
  | [], _, _ => by rw [Arg.rebuildAll, Arg.RegularAll]; trivial
  | a :: as, h, hf => by
    rw [Arg.RegularAll] at h
    simp only [Arg.varsAll, List.mem_append] at hf
    rw [Arg.rebuildAll, Arg.RegularAll]
    exact ⟨Arg.Regular.rebuild h.1 fun v hv => hf v (.inl hv),
      Arg.RegularAll.rebuild h.2 fun v hv => hf v (.inr hv)⟩
end

/-- Forgetting identities keeps types regular. -/
theorem Ty.Regular.shape {t : Ty} (h : t.Regular s k) : t.shape.Regular s k :=
  h.rebuild fun _ _ => by rw [Ty.Regular]; trivial

/-- Substitution keeps the number of arguments. -/
theorem Arg.length_substAll (σ : Subst) (site : Site) (i : Nat) (as : List Arg) :
    ((Arg.substAll? σ site i as).getD as).length = as.length := by
  have h := congrArg List.length (Arg.shape_substAll σ site i as)
  simpa only [Arg.rebuildAll_eq_map, List.length_map] using h

mutual
/-- **Substituting regular types keeps a type regular.** -/
theorem Ty.Regular.subst (σ : Subst) (site : Site) :
    ∀ {t : Ty}, t.Regular s k → (∀ v ∈ t.vars, ∀ u, σ.lookup v = some u → u.Regular s k) →
      (t.subst σ site).Regular s k
  | .prim p, h, _ => h
  | .null, h, _ => h
  | .nominal st d as, h, hσ => by
    rw [Ty.Regular] at h
    have has := Arg.RegularAll.subst σ site 0 h.2
      (by simpa only [Ty.vars] using hσ)
    rw [Ty.subst, Ty.subst?]
    cases hs : Arg.substAll? σ site 0 as with
    | none => rw [Option.map_none, Option.getD_none, Ty.Regular]; exact h
    | some bs =>
      have hlen := Arg.length_substAll σ site 0 as
      rw [hs, Option.getD_some] at has hlen
      rw [Option.map_some, Option.getD_some, Ty.Regular, hlen]
      exact ⟨h.1, has⟩
  | .array e, h, hσ => by
    rw [Ty.Regular] at h
    rw [Ty.subst, Ty.subst?]
    cases hs : e.subst? σ site with
    | none => rw [Option.map_none, Option.getD_none, Ty.Regular]; exact h
    | some e' =>
      rw [Option.map_some, Option.getD_some, Ty.Regular]
      rcases h with h | h
      · cases e with
        | prim p => rw [Ty.subst?] at hs; cases hs
        | _ => cases h
      · have he := Ty.Regular.subst σ site h (by simpa only [Ty.vars] using hσ)
        rw [Ty.subst, hs, Option.getD_some] at he
        exact .inr he
  | .inter st ms, h, hσ => by
    rw [Ty.Regular] at h
    rw [Ty.subst, Ty.subst?]
    cases hs : Ty.substAll? σ site 0 ms with
    | none => rw [Option.map_none, Option.getD_none, Ty.Regular]; exact h
    | some ms' =>
      have hms := Ty.RegularAll.subst σ site 0 h.2
        (by simpa only [Ty.vars] using hσ)
      rw [hs, Option.getD_some] at hms
      rw [Option.map_some, Option.getD_some]
      exact Ty.Regular.meet h.1 hms
  | .var v, _, hσ => by
    rw [Ty.subst, Ty.subst?]
    cases hl : σ.lookup v with
    | none => rw [Option.filter_none, Option.getD_none, Ty.Regular]; trivial
    | some u =>
      have hu := hσ v (by simp [Ty.vars]) u hl
      by_cases huv : u = .var v
      · simp [Option.filter, huv, Ty.Regular]
      · simpa [Option.filter, huv] using hu

/-- Substituting regular types in a regular argument gives a regular argument. -/
theorem Arg.Regular.subst (σ : Subst) (site : Site) :
    ∀ {a : Arg}, a.Regular s k → (∀ v ∈ a.vars, ∀ u, σ.lookup v = some u → u.Regular s k) →
      ((a.subst? σ site).getD a).Regular s k
  | .type t, h, hσ => by
    have ht := Ty.Regular.subst σ site (t := t) (by simpa only [Arg.Regular] using h)
      (by simpa only [Arg.vars] using hσ)
    rw [Ty.subst] at ht
    rw [Arg.subst?]
    cases hs : t.subst? σ site with
    | none => rw [Option.map_none, Option.getD_none]; exact h
    | some t' =>
      rw [hs, Option.getD_some] at ht
      rw [Option.map_some, Option.getD_some, Arg.Regular]
      exact ht
  | .wild u l, h, hσ => by
    rw [Arg.Regular] at h
    simp only [Arg.vars, List.mem_append] at hσ
    have hu := Ty.Regular.subst σ (site.part 0) h.2.1 fun v hv => hσ v (.inl hv)
    have hl := Ty.Regular.subst σ (site.part 1) h.2.2 fun v hv => hσ v (.inr hv)
    rw [Ty.subst] at hu hl
    rw [Arg.subst?]
    cases hsu : u.subst? σ (site.part 0) <;> cases hsl : l.subst? σ (site.part 1) <;>
      rw [hsu] at hu <;> rw [hsl] at hl <;> simp only [Option.getD_some, Option.getD_none] at hu hl ⊢ <;>
      rw [Arg.Regular] <;> exact ⟨h.1, hu, hl⟩

/-- Substituting regular types in regular members gives regular types. -/
theorem Ty.RegularAll.subst (σ : Subst) (site : Site) :
    ∀ (i : Nat) {ts : List Ty}, Ty.RegularAll s k ts →
      (∀ v ∈ Ty.varsAll ts, ∀ u, σ.lookup v = some u → u.Regular s k) →
        ∀ t ∈ (Ty.substAll? σ site i ts).getD ts, t.Regular s k
  | _, [], _, _ => by simp [Ty.substAll?]
  | i, t :: ts, h, hσ => by
    rw [Ty.RegularAll] at h
    simp only [Ty.varsAll, List.mem_append] at hσ
    have ht := Ty.Regular.subst σ (site.part i) h.1.2 fun v hv => hσ v (.inl hv)
    have hts := Ty.RegularAll.subst σ site (i + 1) h.2
      fun v hv => hσ v (.inr hv)
    rw [Ty.subst] at ht
    rw [Ty.substAll?]
    cases hst : t.subst? σ (site.part i) <;> cases hss : Ty.substAll? σ site (i + 1) ts <;>
      rw [hst] at ht <;> rw [hss] at hts <;>
      simp only [Option.getD_some, Option.getD_none] at ht hts ⊢ <;>
      exact List.forall_mem_cons.2 ⟨ht, hts⟩

/-- Substituting regular types in regular arguments gives regular arguments. -/
theorem Arg.RegularAll.subst (σ : Subst) (site : Site) :
    ∀ (i : Nat) {as : List Arg}, Arg.RegularAll s k as →
      (∀ v ∈ Arg.varsAll as, ∀ u, σ.lookup v = some u → u.Regular s k) →
        Arg.RegularAll s k ((Arg.substAll? σ site i as).getD as)
  | _, [], h, _ => h
  | i, a :: as, h, hσ => by
    rw [Arg.RegularAll] at h
    simp only [Arg.varsAll, List.mem_append] at hσ
    have ha := Arg.Regular.subst σ (site.part i) h.1 fun v hv => hσ v (.inl hv)
    have has := Arg.RegularAll.subst σ site (i + 1) h.2
      fun v hv => hσ v (.inr hv)
    rw [Arg.substAll?]
    cases hsa : a.subst? σ (site.part i) <;> cases hss : Arg.substAll? σ site (i + 1) as <;>
      rw [hsa] at ha <;> rw [hss] at has <;>
      simp only [Option.getD_some, Option.getD_none] at ha has ⊢ <;>
      rw [Arg.RegularAll] <;> exact ⟨ha, has⟩
end

/-! ### Shapes of regular types -/

/-- Primitive types have no identities to forget. -/
@[simp] theorem Ty.shape_prim (p : Primitive) : (Ty.prim p).shape = .prim p := rfl

/-- The null type has no identity to forget. -/
@[simp] theorem Ty.shape_null : Ty.null.shape = .null := rfl

/-- Forgetting identities goes into the elements of arrays. -/
@[simp] theorem Ty.shape_array (e : Ty) : (Ty.array e).shape = .array e.shape := rfl

/-- Variables have no identities to forget. -/
@[simp] theorem Ty.shape_var (v : Var) : (Ty.var v).shape = .var v := rfl

/-- `Object` is its own shape. -/
@[simp] theorem Ty.shape_object : Ty.object.shape = .object := rfl

/-- The argument without its sites. -/
def Arg.shape (a : Arg) : Arg := a.rebuild .var

/-- Identities do not matter for what is rebuilt. -/
theorem Arg.map_rebuild_shape (f : Var → Ty) (as : List Arg) :
    (as.map Arg.shape).map (Arg.rebuild f) = as.map (Arg.rebuild f) := by
  rw [List.map_map]
  exact List.map_congr_left fun a _ => Arg.rebuild_rebuild .var f a

/-- Forgetting identities goes into an argument that is a type. -/
@[simp] theorem Arg.shape_type (t : Ty) : (Arg.type t).shape = .type t.shape := rfl

/-- Forgetting identities goes into both bounds of a wildcard. -/
@[simp] theorem Arg.shape_wild (u l : Ty) : (Arg.wild u l).shape = .wild u.shape l.shape := rfl

/-- Forgetting identities goes into the arguments of a declaration. -/
@[simp] theorem Ty.shape_nominal (site : Site) (d : String) (as : List Arg) :
    (Ty.nominal site d as).shape = .nominal .common d (as.map Arg.shape) := by
  rw [Ty.shape, Ty.rebuild, Arg.rebuildAll_eq_map]
  rfl

/-- A type that is no intersection consists of itself. -/
theorem Ty.conjuncts_of_not_inter {t : Ty} (h : t.isInter = false) : t.conjuncts = [t] := by
  cases t with
  | inter s ms => cases h
  | _ => rfl

/-- Members that stay no intersections are rebuilt one by one. -/
theorem Ty.rebuildParts_eq_map {f : Var → Ty} {ts : List Ty}
    (h : ∀ t ∈ ts, (t.rebuild f).isInter = false) :
    Ty.rebuildParts f ts = ts.map (Ty.rebuild f) := by
  induction ts with
  | nil => rfl
  | cons t ts ih =>
    rw [Ty.rebuildParts, Ty.conjuncts_of_not_inter (h t List.mem_cons_self),
      ih fun u hu => h u (List.mem_cons_of_mem _ hu)]
    rfl

/-- Forgetting identities makes no intersection and undoes none. -/
@[simp] theorem Ty.isInter_shape (t : Ty) : t.shape.isInter = t.isInter := by
  cases t <;> rfl

/-- Forgetting identities goes into the members of a regular intersection. -/
theorem Ty.shape_inter {site : Site} {ms : List Ty} (h : (Ty.inter site ms).Regular s k) :
    (Ty.inter site ms).shape = .inter .common (ms.map Ty.shape) := by
  rw [Ty.Regular] at h
  rw [Ty.shape, Ty.rebuild, Ty.rebuildParts_eq_map]
  · rfl
  · intro t ht
    rw [← Ty.shape, Ty.isInter_shape]
    exact (Ty.regularAll_iff.1 h.2 t ht).1

/-! ### Settings of regular declarations -/

/-- The bound of the second parameter is the first one, or an intersection with it. -/
def Setting.BareBound (s : Setting) (q p : TypeVar) : Prop :=
  Ty.var (.declared q) ∈ (s.catalog.upper p).conjuncts

/-- The supertypes and bounds of all declarations are regular and written over the parameters of
their own declaration; the top declaration is plain. Where there are wildcards, arrays are below
the top declaration, no parameter is bounded by itself, and of two parameters with one name a
bound means the last one. -/
structure Setting.Regular (s : Setting) (k : Fragment) : Prop where
  object : s.PlainObject
  parents : ∀ decl l, s.lineageOf decl = some l → ∀ n ∈ l.parents,
    n.toTy.Regular s k ∧ n.hasWild = false ∧ ∀ v ∈ n.toTy.vars, ∃ p ∈ l.params, v = .declared p
  bounds : ∀ decl l, s.lineageOf decl = some l → ∀ p ∈ l.params,
    (s.catalog.upper p).Regular s k ∧ ∀ v ∈ (s.catalog.upper p).vars, ∃ q ∈ l.params, v = .declared q
  arrays : k = .full → objectName ∈ s.options.arrayParents
  ranked : k = .full → ∀ decl l, s.lineageOf decl = some l → ∀ p ∈ l.params, Acc s.BareBound p
  resolved : k = .full → ∀ decl l, s.lineageOf decl = some l → ∀ p ∈ l.params, ∀ q,
    s.BareBound q p → l.params.reverse.find? (fun r => r.key == q.key) = some q

/-- The supertypes of all declarations are regular, without wildcards, and written over the
parameters of their own declaration; nothing is said about bounds. -/
def Setting.ParentsRegular (s : Setting) (k : Fragment) : Prop :=
  ∀ decl l, s.lineageOf decl = some l → ∀ n ∈ l.parents,
    n.toTy.Regular s k ∧ n.hasWild = false ∧ ∀ v ∈ n.toTy.vars, ∃ p ∈ l.params, v = .declared p

/-- Parents that are regular are known. -/
theorem Setting.ParentsRegular.known (h : s.ParentsRegular k) : s.ParentsKnown := by
  intro decl l hl n hn
  have hreg := (h decl l hl n hn).1
  rw [Nominal.toTy, Ty.Regular] at hreg
  obtain ⟨⟨l', hl', _⟩, _⟩ := hreg
  rw [hl']
  rfl

/-- The supertypes of a regular catalog are known. -/
theorem Setting.Regular.parentsKnown (h : s.Regular k) : s.ParentsKnown :=
  ParentsRegular.known h.parents

end Generics
