/-
# What types are made of

A type is made of declarations (`Ty.names`) and of variables (`Ty.vars`). A `Realm` says which of
either may be met, and a type is `In` the realm if it is made of such ones only. Whatever is done to
types on the way to an answer stays in a realm: taking them apart, putting types in the place of
variables (`Ty.In.subst`), joining bounds (`Ty.In.meetBounds`), and capturing.
-/

import Generics.Proofs.Rebuilding
import Generics.Query.Capture

namespace Generics

mutual
/-- The declarations occurring in a type, in order and with repetitions; bounds of variables are not
entered. -/
def Ty.names : Ty → List String
  | .prim _ => []
  | .null => []
  | .nominal _ decl args => decl :: Arg.namesAll args
  | .array elem => elem.names
  | .inter _ members => Ty.namesAll members
  | .var _ => []

/-- The declarations occurring in an argument. -/
def Arg.names : Arg → List String
  | .type t => t.names
  | .wild upper lower => upper.names ++ lower.names

/-- The declarations occurring in some types. -/
def Ty.namesAll : List Ty → List String
  | [] => []
  | t :: ts => t.names ++ Ty.namesAll ts

/-- The declarations occurring in some arguments. -/
def Arg.namesAll : List Arg → List String
  | [] => []
  | a :: as => a.names ++ Arg.namesAll as
end

/-- A declaration occurs in some types if it occurs in one of them. -/
theorem Ty.mem_namesAll {d : String} {ts : List Ty} : d ∈ Ty.namesAll ts ↔ ∃ t ∈ ts, d ∈ t.names := by
  induction ts with
  | nil => simp [Ty.namesAll]
  | cons t ts ih => simp [Ty.namesAll, ih]

/-- A declaration occurs in some arguments if it occurs in one of them. -/
theorem Arg.mem_namesAll {d : String} {as : List Arg} :
    d ∈ Arg.namesAll as ↔ ∃ a ∈ as, d ∈ a.names := by
  induction as with
  | nil => simp [Arg.namesAll]
  | cons a as ih => simp [Arg.namesAll, ih]

/-- What occurs in a type occurs in what it consists of. -/
theorem Ty.namesAll_conjuncts (t : Ty) : Ty.namesAll t.conjuncts = t.names := by
  cases t <;> simp [Ty.conjuncts, Ty.namesAll, Ty.names]

/-- What occurs in two lists of types, in order. -/
theorem Ty.namesAll_append (ts us : List Ty) :
    Ty.namesAll (ts ++ us) = Ty.namesAll ts ++ Ty.namesAll us := by
  induction ts with
  | nil => rfl
  | cons t ts ih => rw [List.cons_append, Ty.namesAll, ih, Ty.namesAll, List.append_assoc]

section Rebuilding

variable {f : Var → Ty} {d : String}

mutual
/-- **The declarations in a rebuilt type are its own and those of what was put in.** -/
theorem Ty.mem_names_rebuild :
    ∀ t : Ty, d ∈ (t.rebuild f).names ↔ d ∈ t.names ∨ ∃ v ∈ t.vars, d ∈ (f v).names
  | .prim _ => by simp [Ty.rebuild, Ty.names, Ty.vars]
  | .null => by simp [Ty.rebuild, Ty.names, Ty.vars]
  | .nominal _ _ as => by
    simp only [Ty.rebuild, Ty.names, Ty.vars, List.mem_cons, Arg.mem_namesAll_rebuildAll as, or_assoc]
  | .array e => by simp only [Ty.rebuild, Ty.names, Ty.vars, Ty.mem_names_rebuild e]
  | .inter _ ms => by simp only [Ty.rebuild, Ty.names, Ty.vars, Ty.mem_namesAll_rebuildParts ms]
  | .var v => by simp [Ty.rebuild, Ty.names, Ty.vars]

/-- A declaration occurs in a rebuilt argument if it did before or comes with what is put in. -/
theorem Arg.mem_names_rebuild :
    ∀ a : Arg, d ∈ (a.rebuild f).names ↔ d ∈ a.names ∨ ∃ v ∈ a.vars, d ∈ (f v).names
  | .type t => by simp only [Arg.rebuild, Arg.names, Arg.vars, Ty.mem_names_rebuild t]
  | .wild u l => by
    simp only [Arg.rebuild, Arg.names, Arg.vars, List.mem_append, Ty.mem_names_rebuild u,
      Ty.mem_names_rebuild l, or_and_right, exists_or]
    exact or_or_or_comm

/-- The same for the members of an intersection. -/
theorem Ty.mem_namesAll_rebuildParts : ∀ ts : List Ty, d ∈ Ty.namesAll (Ty.rebuildParts f ts) ↔
    d ∈ Ty.namesAll ts ∨ ∃ v ∈ Ty.varsAll ts, d ∈ (f v).names
  | [] => by simp [Ty.rebuildParts, Ty.namesAll, Ty.varsAll]
  | t :: ts => by
    simp only [Ty.rebuildParts, Ty.namesAll_append, Ty.namesAll_conjuncts, Ty.namesAll, Ty.varsAll,
      List.mem_append, Ty.mem_names_rebuild t, Ty.mem_namesAll_rebuildParts ts, or_and_right, exists_or]
    exact or_or_or_comm

/-- The same for arguments. -/
theorem Arg.mem_namesAll_rebuildAll : ∀ as : List Arg, d ∈ Arg.namesAll (Arg.rebuildAll f as) ↔
    d ∈ Arg.namesAll as ∨ ∃ v ∈ Arg.varsAll as, d ∈ (f v).names
  | [] => by simp [Arg.rebuildAll, Arg.namesAll, Arg.varsAll]
  | a :: as => by
    simp only [Arg.rebuildAll, Arg.namesAll, Arg.varsAll, List.mem_append, Arg.mem_names_rebuild a,
      Arg.mem_namesAll_rebuildAll as, or_and_right, exists_or]
    exact or_or_or_comm
end

end Rebuilding

/-- Forgetting identities changes no occurrence. -/
theorem Ty.mem_names_shape {t : Ty} {d : String} : d ∈ t.shape.names ↔ d ∈ t.names := by
  rw [Ty.shape, Ty.mem_names_rebuild]
  simp [Ty.names]

/-! ### Realms -/

/-- Declarations and variables that may be met. -/
structure Realm where
  decl : String → Prop
  var : Var → Prop

/-- The realm of all declarations and variables. -/
def Realm.all : Realm := ⟨fun _ => True, fun _ => True⟩

/-- A realm is in another one if whatever may be met in it may be met there. -/
instance : LE Realm := ⟨fun K K' => (∀ d, K.decl d → K'.decl d) ∧ ∀ v, K.var v → K'.var v⟩

/-- The type is made of declarations and variables of the realm. -/
def Ty.In (K : Realm) (t : Ty) : Prop := (∀ d ∈ t.names, K.decl d) ∧ ∀ v ∈ t.vars, K.var v

/-- The argument is made of declarations and variables of the realm. -/
def Arg.In (K : Realm) (a : Arg) : Prop := (∀ d ∈ a.names, K.decl d) ∧ ∀ v ∈ a.vars, K.var v

/-- The applied declaration is made of declarations and variables of the realm. -/
def Nominal.In (K : Realm) (n : Nominal) : Prop := n.toTy.In K

/-- The substitution gives types in the realm only. -/
def Subst.In (K : Realm) (σ : Subst) : Prop := ∀ v t, σ.lookup v = some t → t.In K

/-- What is learnt about the declaration is in the realm. -/
structure Lineage.In (K : Realm) (l : Lineage) : Prop where
  params : ∀ v ∈ l.params, K.var (.declared v)
  parents : ∀ n ∈ l.parents, n.In K

/-- Everything is in the realm of all. -/
theorem Ty.in_all (t : Ty) : t.In .all := ⟨fun _ _ => trivial, fun _ _ => trivial⟩

/-- Every argument is in the realm of everything. -/
theorem Arg.in_all (a : Arg) : a.In .all := ⟨fun _ _ => trivial, fun _ _ => trivial⟩

/-- Every applied declaration is in the realm of everything. -/
theorem Nominal.in_all (n : Nominal) : n.In .all := n.toTy.in_all

/-- The realm of everything is the largest one. -/
theorem Realm.le_all (K : Realm) : K ≤ .all := ⟨fun _ _ => trivial, fun _ _ => trivial⟩

section Mono

variable {K K' : Realm} (hle : K ≤ K')
include hle

/-- A type is in every larger realm, too. -/
theorem Ty.In.mono {t : Ty} (h : t.In K) : t.In K' :=
  ⟨fun d hd => hle.1 d (h.1 d hd), fun v hv => hle.2 v (h.2 v hv)⟩

/-- An applied declaration is in every larger realm, too. -/
theorem Nominal.In.mono {n : Nominal} (h : n.In K) : Nominal.In K' n := Ty.In.mono hle h

/-- What is learnt of a declaration is in every larger realm, too. -/
theorem Lineage.In.mono {l : Lineage} (h : l.In K) : l.In K' :=
  ⟨fun v hv => hle.2 _ (h.params v hv), fun n hn => (h.parents n hn).mono hle⟩

end Mono

section Realm

variable {K : Realm}

/-- Primitive types are in every realm. -/
@[simp] theorem Ty.in_prim {p : Primitive} : (Ty.prim p).In K := by simp [Ty.In, Ty.names, Ty.vars]

/-- The null type is in every realm. -/
@[simp] theorem Ty.in_null : Ty.null.In K := by simp [Ty.In, Ty.names, Ty.vars]

/-- An applied declaration is in a realm if the declaration and the arguments are. -/
@[simp] theorem Ty.in_nominal {site : Site} {decl : String} {args : List Arg} :
    (Ty.nominal site decl args).In K ↔ K.decl decl ∧ ∀ a ∈ args, a.In K := by
  simp only [Ty.In, Arg.In, Ty.names, Ty.vars, List.mem_cons, Arg.mem_namesAll, Arg.mem_varsAll]
  grind

/-- An array is in a realm if its elements are. -/
@[simp] theorem Ty.in_array {elem : Ty} : (Ty.array elem).In K ↔ elem.In K := by
  simp only [Ty.In, Ty.names, Ty.vars]

/-- An intersection is in a realm if its members are. -/
@[simp] theorem Ty.in_inter {site : Site} {members : List Ty} :
    (Ty.inter site members).In K ↔ ∀ t ∈ members, t.In K := by
  simp only [Ty.In, Ty.names, Ty.vars, Ty.mem_namesAll, Ty.mem_varsAll]
  grind

/-- A variable that is taken as a type is in a realm if the variable is. -/
@[simp] theorem Ty.in_var {v : Var} : (Ty.var v).In K ↔ K.var v := by
  simp [Ty.In, Ty.names, Ty.vars]

/-- An argument that is a type is in a realm if the type is. -/
@[simp] theorem Arg.in_type {t : Ty} : (Arg.type t).In K ↔ t.In K := by
  simp only [Ty.In, Arg.In, Arg.names, Arg.vars]

/-- A wildcard is in a realm if both its bounds are. -/
@[simp] theorem Arg.in_wild {upper lower : Ty} :
    (Arg.wild upper lower).In K ↔ upper.In K ∧ lower.In K := by
  simp only [Ty.In, Arg.In, Arg.names, Arg.vars, List.mem_append]
  grind

/-- An applied declaration is in a realm if its name and its arguments are. -/
theorem Nominal.in_iff {n : Nominal} : n.In K ↔ K.decl n.decl ∧ ∀ a ∈ n.args, a.In K := Ty.in_nominal

/-- The name of an applied declaration in a realm is in it. -/
theorem Nominal.In.decl {n : Nominal} (h : n.In K) : K.decl n.decl := (Nominal.in_iff.1 h).1

/-- The arguments of an applied declaration in a realm are in it. -/
theorem Nominal.In.args {n : Nominal} (h : n.In K) : ∀ a ∈ n.args, a.In K := (Nominal.in_iff.1 h).2

/-- A raw declaration is in a realm if its name is. -/
theorem Nominal.in_bare {site : Site} {decl : String} (h : K.decl decl) :
    (⟨site, decl, []⟩ : Nominal).In K :=
  Nominal.in_iff.2 ⟨h, fun _ ha => absurd ha List.not_mem_nil⟩

/-- Whether a type is in a realm does not depend on identities. -/
theorem Ty.in_shape {t : Ty} : t.shape.In K ↔ t.In K := by
  simp only [Ty.In, Ty.mem_names_shape, Ty.vars_shape]

/-- A type is in a realm if all that it consists of is. -/
theorem Ty.in_conjuncts {t : Ty} : (∀ c ∈ t.conjuncts, c.In K) ↔ t.In K := by
  cases t <;> simp [Ty.conjuncts]

/-! ### What stays in a realm -/

/-- Joining types of a realm stays in it. -/
theorem Ty.In.meet {ts : List Ty} (site : Site) (h : ∀ t ∈ ts, t.In K) : (Ty.meet site ts).In K := by
  have hmembers : ∀ c ∈ ts.flatMap Ty.conjuncts, c.In K := by
    intro c hc
    obtain ⟨t, ht, hc⟩ := List.mem_flatMap.1 hc
    exact Ty.in_conjuncts.2 (h t ht) c hc
  rw [Ty.meet]
  split
  · simp [Ty.top]
  · exact Ty.in_inter.2 hmembers

/-- **Bounds in the realm meet in it.** -/
theorem Ty.In.meetBounds {a b : Ty} (site : Site) (ha : a.In K) (hb : b.In K) :
    (Ty.meetBounds site a b).In K := by
  rw [Ty.meetBounds]
  split
  · exact hb
  · split
    · exact ha
    · exact .meet site (by simp [ha, hb])

/-- The empty substitution is in every realm. -/
theorem Subst.in_empty : ({} : Subst).In K := fun _ _ h => nomatch h

/-- Adding types of a realm to a substitution in it stays in it. -/
theorem Subst.In.insertAll {σ : Subst} {ps : List (Var × Ty)} (hσ : σ.In K)
    (h : ∀ p ∈ ps, p.2.In K) : (σ.insertAll ps).In K := by
  intro v t ht
  rw [Subst.lookup_insertAll, Option.or_eq_some_iff] at ht
  rcases ht with ht | ⟨-, ht⟩
  · obtain ⟨p, hp, rfl⟩ := Option.map_eq_some_iff.1 ht
    exact h p (List.mem_reverse.1 (List.mem_of_find?_eq_some hp))
  · exact hσ v t ht

/-- Types of a realm that are paired with variables are a substitution in it. -/
theorem Subst.In.zip {ts : List Ty} (vs : List TypeVar) (h : ∀ t ∈ ts, t.In K) :
    (Subst.zip vs ts).In K := fun _ _ ht => h _ (Subst.mem_of_lookup_zip ht)

/-- What a substitution in a realm puts in the place of a variable of the realm is in it. -/
theorem Subst.In.image {σ : Subst} (hσ : σ.In K) {v : Var} (hv : K.var v) : (σ.image v).In K := by
  rw [Subst.image]
  cases h : σ.lookup v with
  | none => exact Ty.in_var.2 hv
  | some t => exact Ty.in_shape.2 (hσ v t h)

/-- **Putting types of the realm in the place of variables stays in it.** -/
theorem Ty.In.subst {σ : Subst} {t : Ty} (hσ : σ.In K) (ht : t.In K) (site : Site) :
    (t.subst σ site).In K := by
  rw [← Ty.in_shape, Ty.shape_subst]
  refine ⟨fun d hd => ?_, fun v hv => ?_⟩
  · rcases (Ty.mem_names_rebuild t).1 hd with hd | ⟨v, hv, hd⟩
    · exact ht.1 d hd
    · exact (hσ.image (ht.2 v hv)).1 d hd
  · obtain ⟨w, hw, hv⟩ := Ty.mem_vars_rebuild.1 hv
    exact (hσ.image (ht.2 w hw)).2 v hv

/-- Replacing variables stays in the realm. -/
theorem Ty.In.of_subst? {σ : Subst} {t t' : Ty} {site : Site} (hσ : σ.In K) (ht : t.In K)
    (h : t.subst? σ site = some t') : t'.In K := by
  have hsubst := ht.subst hσ site
  rwa [Ty.subst, h, Option.getD_some] at hsubst

/-- Replacing variables in an applied declaration stays in the realm. -/
theorem Nominal.In.of_subst? {σ : Subst} {n n' : Nominal} {site : Site} (hσ : σ.In K) (hn : n.In K)
    (h : n.subst? σ site = some n') : n'.In K := by
  have hty : n.toTy.subst? σ site = some n'.toTy := by
    obtain ⟨args, hargs, rfl⟩ := Option.map_eq_some_iff.1 h
    rw [Nominal.toTy, Ty.subst?, hargs]
    rfl
  exact Ty.In.of_subst? hσ hn hty

/-- The arguments in a realm that are types are types in it. -/
theorem Arg.in_types {as : List Arg} (h : ∀ a ∈ as, a.In K) : ∀ t ∈ as.filterMap Arg.type?, t.In K := by
  intro t ht
  obtain ⟨a, ha, htype⟩ := List.mem_filterMap.1 ht
  cases a with
  | type t' =>
    cases htype
    exact Arg.in_type.1 (h _ ha)
  | wild u l => cases htype

/-- The captured variables are numbers of the realm if all later ones are. -/
theorem Arg.in_captureArgs {last : Nat} (hfresh : ∀ i > last, K.var (.captured i)) {as : List Arg}
    (h : ∀ a ∈ as, a.In K) : ∀ a ∈ Setting.captureArgs last as, a.In K := by
  induction as generalizing last with
  | nil => simp [Setting.captureArgs]
  | cons a as ih =>
    obtain ⟨ha, has⟩ := List.forall_mem_cons.1 h
    cases a with
    | type t =>
      rw [Setting.captureArgs]
      exact List.forall_mem_cons.2 ⟨ha, ih hfresh has⟩
    | wild u l =>
      rw [Setting.captureArgs]
      refine List.forall_mem_cons.2 ⟨?_, ih (fun i hi => hfresh i (by omega)) has⟩
      exact Arg.in_type.2 (Ty.in_var.2 (hfresh _ (Nat.lt_succ_self last)))

end Realm
end Generics
