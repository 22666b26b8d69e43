/-
# Other names for variables

A captured variable is known by its number and a declared one by its declaration and name. A `Renaming`
puts others in their place: the numbers after one are ahead, and the variables of a declaration are
called otherwise. No two variables become one, and so nothing that is asked of types can tell the
difference: neither equality (`Ty.equal_rename`) nor identity (`Ty.rename_inj`), nor what a substitution
does (`Ty.subst?_rename`). A type in which no declared variable is renamed only gets other numbers
(`Ty.rename_eq_renumber`).
-/

import Generics.Proofs.Renumbering

namespace Generics

/-- Numbers up to `c` stay, and later ones are ahead by `k`. -/
def lift (c k i : Nat) : Nat := if i ≤ c then i else i + k

section Lift

variable {c k i : Nat}

/-- Numbers that were handed out before stay. -/
theorem lift_of_le (h : i ≤ c) : lift c k i = i := if_pos h

/-- Later numbers are ahead. -/
theorem lift_of_lt (h : c < i) : lift c k i = i + k := if_neg (Nat.not_le.2 h)

/-- No two numbers are moved to one. -/
theorem lift_injective (c k : Nat) : Function.Injective (lift c k) := by
  intro i j h
  unfold lift at h
  split at h <;> split at h <;> omega

/-- Numbers that are ahead by nothing stay. -/
theorem lift_zero (c : Nat) : lift c 0 = id := by
  funext i
  unfold lift
  split <;> rfl

end Lift

/-- Other names for variables: the numbers of captured variables after one are ahead, and the variables
of each declaration get other names, different ones if they had different names. -/
structure Renaming where
  after : Nat := 0
  ahead : Nat := 0
  name : String → String → String := fun _ n => n
  injective : ∀ decl, Function.Injective (name decl) := by exact fun _ => Function.injective_id

namespace Renaming

/-- The number in place of a number. -/
def number (ρ : Renaming) : Nat → Nat := lift ρ.after ρ.ahead

/-- A renaming keeps captured variables apart. -/
theorem number_injective (ρ : Renaming) : Function.Injective ρ.number := lift_injective _ _

/-- Numbers after `c` are ahead by `k`, and all names stay. -/
def counter (c k : Nat) : Renaming := { after := c, ahead := k }

end Renaming

section Definitions

variable (ρ : Renaming)

/-- The declared variable with another name. -/
def TypeVar.rename (v : TypeVar) : TypeVar := { v with name := ρ.name v.decl v.name }

/-- The variable with another name. -/
def Var.rename : Var → Var
  | .declared v => .declared (v.rename ρ)
  | .captured id => .captured (ρ.number id)

/-- The key with another name. -/
def VarKey.rename : VarKey → VarKey
  | .declared decl name => .declared decl (ρ.name decl name)
  | .captured id => .captured (ρ.number id)

mutual
/-- The type with other names. -/
def Ty.rename : Ty → Ty
  | .prim p => .prim p
  | .null => .null
  | .nominal site decl args => .nominal (site.renumber ρ.number) decl (Arg.renameAll args)
  | .array elem => .array elem.rename
  | .inter site members => .inter (site.renumber ρ.number) (Ty.renameAll members)
  | .var v => .var (v.rename ρ)

/-- The argument with other names. -/
def Arg.rename : Arg → Arg
  | .type t => .type t.rename
  | .wild upper lower => .wild upper.rename lower.rename

/-- The types with other names. -/
def Ty.renameAll : List Ty → List Ty
  | [] => []
  | t :: ts => t.rename :: Ty.renameAll ts

/-- The arguments with other names. -/
def Arg.renameAll : List Arg → List Arg
  | [] => []
  | a :: as => a.rename :: Arg.renameAll as
end

/-- The applied declaration with other names. -/
def Nominal.rename (n : Nominal) : Nominal :=
  ⟨n.site.renumber ρ.number, n.decl, n.args.map (Arg.rename ρ)⟩

/-- The substitution with other names. -/
def Subst.rename (σ : Subst) : Subst := ⟨σ.entries.map fun e => (e.1.rename ρ, e.2.rename ρ)⟩

end Definitions

section Equations

variable (ρ : Renaming)

/-- Arguments are renamed one by one. -/
theorem Arg.renameAll_eq_map (as : List Arg) : Arg.renameAll ρ as = as.map (Arg.rename ρ) := by
  induction as with
  | nil => rfl
  | cons a as ih => exact congrArg (a.rename ρ :: ·) ih

/-- Types are renamed one by one. -/
theorem Ty.renameAll_eq_map (ts : List Ty) : Ty.renameAll ρ ts = ts.map (Ty.rename ρ) := by
  induction ts with
  | nil => rfl
  | cons t ts ih => exact congrArg (t.rename ρ :: ·) ih

/-- Renaming goes into the arguments of a declaration, whose name stays. -/
@[simp] theorem Ty.rename_nominal (site : Site) (decl : String) (args : List Arg) :
    (Ty.nominal site decl args).rename ρ =
      .nominal (site.renumber ρ.number) decl (args.map (Arg.rename ρ)) :=
  congrArg (Ty.nominal _ decl) (Arg.renameAll_eq_map ρ args)

/-- Renaming goes into the members of an intersection. -/
@[simp] theorem Ty.rename_inter (site : Site) (members : List Ty) :
    (Ty.inter site members).rename ρ = .inter (site.renumber ρ.number) (members.map (Ty.rename ρ)) :=
  congrArg (Ty.inter _) (Ty.renameAll_eq_map ρ members)

/-- Primitive types have nothing to rename. -/
@[simp] theorem Ty.rename_prim (p : Primitive) : (Ty.prim p).rename ρ = .prim p := rfl

/-- The null type has nothing to rename. -/
@[simp] theorem Ty.rename_null : Ty.null.rename ρ = .null := rfl

/-- Renaming goes into the elements of an array. -/
@[simp] theorem Ty.rename_array (elem : Ty) :
    (Ty.array elem).rename ρ = .array (elem.rename ρ) := rfl

/-- A variable that is taken as a type is renamed as a variable. -/
@[simp] theorem Ty.rename_var (v : Var) : (Ty.var v).rename ρ = .var (v.rename ρ) := rfl

/-- Renaming goes into an argument that is a type. -/
@[simp] theorem Arg.rename_type (t : Ty) : (Arg.type t).rename ρ = .type (t.rename ρ) := rfl

/-- Renaming goes into both bounds of a wildcard. -/
@[simp] theorem Arg.rename_wild (upper lower : Ty) :
    (Arg.wild upper lower).rename ρ = .wild (upper.rename ρ) (lower.rename ρ) := rfl

/-- A declared variable gets another name. -/
@[simp] theorem Var.rename_declared (v : TypeVar) :
    (Var.declared v).rename ρ = .declared (v.rename ρ) := rfl

/-- A captured variable gets another number. -/
@[simp] theorem Var.rename_captured (id : Nat) :
    (Var.captured id).rename ρ = .captured (ρ.number id) := rfl

/-- The key of a renamed variable is the renamed key. -/
@[simp] theorem Var.key_rename (v : Var) : (v.rename ρ).key = v.key.rename ρ := by
  cases v <;> rfl

/-- `Object` has nothing to rename. -/
@[simp] theorem Ty.rename_object : Ty.object.rename ρ = .object := by simp [Ty.object]

/-- The empty intersection has nothing to rename. -/
@[simp] theorem Ty.rename_top : Ty.top.rename ρ = .top := by simp [Ty.top]

/-- The top declaration has nothing to rename. -/
@[simp] theorem Nominal.rename_object : Nominal.object.rename ρ = .object := rfl

/-- Raw declarations have nothing to rename. -/
@[simp] theorem Nominal.rename_raw (decl : String) : (Nominal.raw decl).rename ρ = .raw decl := rfl

/-- Renaming an applied declaration is renaming it as a type. -/
@[simp] theorem Nominal.toTy_rename (n : Nominal) : (n.rename ρ).toTy = n.toTy.rename ρ := by
  simp [Nominal.toTy, Nominal.rename]

/-- Renaming makes no intersection and undoes none. -/
@[simp] theorem Ty.isInter_rename (t : Ty) : (t.rename ρ).isInter = t.isInter := by
  cases t <;> simp [Ty.isInter]

/-- Renaming makes no primitive type. -/
@[simp] theorem Ty.isPrim_rename (t : Ty) : (t.rename ρ).isPrim = t.isPrim := by
  cases t <;> simp [Ty.isPrim]

/-- Renaming makes no wildcard. -/
@[simp] theorem Arg.isWild_rename (a : Arg) : (a.rename ρ).isWild = a.isWild := by
  cases a <;> simp [Arg.isWild]

/-- The type that an argument is, renamed. -/
@[simp] theorem Arg.type?_rename (a : Arg) : (a.rename ρ).type? = a.type?.map (Ty.rename ρ) := by
  cases a <;> simp [Arg.type?]

/-- The types among renamed arguments are the types among the arguments, renamed. -/
theorem Arg.types_rename (as : List Arg) : (as.map (Arg.rename ρ)).filterMap Arg.type? =
    (as.filterMap Arg.type?).map (Ty.rename ρ) := by
  simp [List.filterMap_map, List.map_filterMap]

/-- There are wildcards among renamed arguments if there were before. -/
theorem Arg.any_isWild_rename (as : List Arg) :
    (as.map (Arg.rename ρ)).any Arg.isWild = as.any Arg.isWild := by
  simp [Function.comp_def]

/-- The declared variable that a type is, renamed. -/
@[simp] theorem Ty.typeVar?_rename (t : Ty) :
    (t.rename ρ).typeVar? = t.typeVar?.map (TypeVar.rename ρ) := by
  cases t with
  | var v => cases v <;> simp [Ty.typeVar?]
  | _ => simp [Ty.typeVar?]

/-- Only `Null` becomes `Null`. -/
@[simp] theorem Ty.rename_eq_null {t : Ty} : t.rename ρ = .null ↔ t = .null := by
  cases t <;> simp

/-- Renaming makes no top type. -/
@[simp] theorem Ty.isTop_rename (t : Ty) : (t.rename ρ).isTop = t.isTop := by
  cases t with
  | nominal site decl args => cases args <;> simp [Ty.isTop]
  | inter site members => cases members <;> simp [Ty.isTop]
  | _ => simp [Ty.isTop]

mutual
/-- The variables of a renamed type are its variables, renamed. -/
theorem Ty.vars_rename : ∀ t : Ty, (t.rename ρ).vars = t.vars.map (Var.rename ρ)
  | .prim p => by rw [Ty.rename, Ty.vars, List.map_nil]
  | .null => by rw [Ty.rename, Ty.vars, List.map_nil]
  | .nominal site decl args => by rw [Ty.rename, Ty.vars, Ty.vars, Arg.varsAll_rename]
  | .array elem => by rw [Ty.rename, Ty.vars, Ty.vars, Ty.vars_rename]
  | .inter site members => by rw [Ty.rename, Ty.vars, Ty.vars, Ty.varsAll_rename]
  | .var v => by rw [Ty.rename, Ty.vars, Ty.vars, List.map_singleton]

/-- The same for arguments. -/
theorem Arg.vars_rename : ∀ a : Arg, (a.rename ρ).vars = a.vars.map (Var.rename ρ)
  | .type t => by rw [Arg.rename, Arg.vars, Arg.vars, Ty.vars_rename]
  | .wild upper lower => by
    rw [Arg.rename, Arg.vars, Arg.vars, Ty.vars_rename, Ty.vars_rename, List.map_append]

/-- The same for lists of types. -/
theorem Ty.varsAll_rename : ∀ ts : List Ty,
    Ty.varsAll (Ty.renameAll ρ ts) = (Ty.varsAll ts).map (Var.rename ρ)
  | [] => rfl
  | t :: ts => by
    rw [Ty.renameAll, Ty.varsAll, Ty.varsAll, Ty.vars_rename, Ty.varsAll_rename, List.map_append]

/-- The same for lists of arguments. -/
theorem Arg.varsAll_rename : ∀ as : List Arg,
    Arg.varsAll (Arg.renameAll ρ as) = (Arg.varsAll as).map (Var.rename ρ)
  | [] => rfl
  | a :: as => by
    rw [Arg.renameAll, Arg.varsAll, Arg.varsAll, Arg.vars_rename, Arg.varsAll_rename,
      List.map_append]
end

/-- What a renamed type consists of, renamed. -/
theorem Ty.conjuncts_rename (t : Ty) :
    (t.rename ρ).conjuncts = t.conjuncts.map (Ty.rename ρ) := by
  cases t <;> simp [Ty.conjuncts]

/-- Joining renamed types is renaming what was joined. -/
theorem Ty.meet_rename (site : Site) (ts : List Ty) :
    Ty.meet (site.renumber ρ.number) (ts.map (Ty.rename ρ)) = (Ty.meet site ts).rename ρ := by
  have hflat : (ts.map (Ty.rename ρ)).flatMap Ty.conjuncts =
      (ts.flatMap Ty.conjuncts).map (Ty.rename ρ) := by
    simp [List.flatMap_map, List.map_flatMap, Ty.conjuncts_rename]
  unfold Ty.meet
  rw [hflat]
  cases ts.flatMap Ty.conjuncts <;> simp

/-- The meeting of renamed bounds is their meeting, renamed. -/
theorem Ty.meetBounds_rename (site : Site) (a b : Ty) :
    Ty.meetBounds (site.renumber ρ.number) (a.rename ρ) (b.rename ρ) =
      (Ty.meetBounds site a b).rename ρ := by
  unfold Ty.meetBounds
  rw [Ty.isTop_rename, Ty.isTop_rename]
  split
  · rfl
  · split
    · rfl
    · exact Ty.meet_rename ρ site [a, b]

end Equations

/-! ## Names that stay -/

/-- A list stays if each of its elements does. -/
theorem map_eq_self {α : Type} {f : α → α} {l : List α} (h : ∀ a ∈ l, f a = a) : l.map f = l :=
  (List.map_congr_left h).trans l.map_id

section Fixed

variable {ρ : Renaming}

/-- Where declared variables keep their names, renaming is renumbering. -/
theorem Var.rename_eq_renumber {v : Var} (h : ∀ w, v = .declared w → w.rename ρ = w) :
    v.rename ρ = v.renumber ρ.number := by
  cases v with
  | declared w => rw [Var.rename_declared, h w rfl, Var.renumber_declared]
  | captured id => rfl

mutual
/-- **Where no declared variable is renamed, the numbers alone are others.** -/
theorem Ty.rename_eq_renumber : ∀ {t : Ty}, (∀ v, .declared v ∈ t.vars → v.rename ρ = v) →
    t.rename ρ = t.renumber ρ.number
  | .prim _, _ => by rw [Ty.rename, Ty.renumber]
  | .null, _ => by rw [Ty.rename, Ty.renumber]
  | .nominal _ _ _, h => by
    rw [Ty.vars] at h
    rw [Ty.rename, Ty.renumber, Arg.renameAll_eq_renumberAll h]
  | .array _, h => by
    rw [Ty.vars] at h
    rw [Ty.rename, Ty.renumber, Ty.rename_eq_renumber h]
  | .inter _ _, h => by
    rw [Ty.vars] at h
    rw [Ty.rename, Ty.renumber, Ty.renameAll_eq_renumberAll h]
  | .var _, h => by
    rw [Ty.vars] at h
    rw [Ty.rename, Ty.renumber,
      Var.rename_eq_renumber fun w hw => h w (List.mem_singleton.2 hw.symm)]

/-- The same for arguments. -/
theorem Arg.rename_eq_renumber : ∀ {a : Arg}, (∀ v, .declared v ∈ a.vars → v.rename ρ = v) →
    a.rename ρ = a.renumber ρ.number
  | .type _, h => by
    rw [Arg.vars] at h
    rw [Arg.rename, Arg.renumber, Ty.rename_eq_renumber h]
  | .wild _ _, h => by
    simp only [Arg.vars, List.mem_append] at h
    rw [Arg.rename, Arg.renumber, Ty.rename_eq_renumber fun v hv => h v (.inl hv),
      Ty.rename_eq_renumber fun v hv => h v (.inr hv)]

/-- The same for lists of types. -/
theorem Ty.renameAll_eq_renumberAll : ∀ {ts : List Ty},
    (∀ v, .declared v ∈ Ty.varsAll ts → v.rename ρ = v) →
      Ty.renameAll ρ ts = Ty.renumberAll ρ.number ts
  | [], _ => rfl
  | _ :: _, h => by
    simp only [Ty.varsAll, List.mem_append] at h
    rw [Ty.renameAll, Ty.renumberAll, Ty.rename_eq_renumber fun v hv => h v (.inl hv),
      Ty.renameAll_eq_renumberAll fun v hv => h v (.inr hv)]

/-- The same for lists of arguments. -/
theorem Arg.renameAll_eq_renumberAll : ∀ {as : List Arg},
    (∀ v, .declared v ∈ Arg.varsAll as → v.rename ρ = v) →
      Arg.renameAll ρ as = Arg.renumberAll ρ.number as
  | [], _ => rfl
  | _ :: _, h => by
    simp only [Arg.varsAll, List.mem_append] at h
    rw [Arg.renameAll, Arg.renumberAll, Arg.rename_eq_renumber fun v hv => h v (.inl hv),
      Arg.renameAll_eq_renumberAll fun v hv => h v (.inr hv)]
end

/-- The applied declaration in which no declared variable is renamed. -/
theorem Nominal.rename_eq_renumber {n : Nominal}
    (h : ∀ v, .declared v ∈ n.toTy.vars → v.rename ρ = v) : n.rename ρ = n.renumber ρ.number := by
  rw [Nominal.toTy, Ty.vars] at h
  have hargs := Arg.renameAll_eq_renumberAll h
  rw [Arg.renameAll_eq_map, Arg.renumberAll_eq_map] at hargs
  rw [Nominal.rename, Nominal.renumber, hargs]

/-- Another counter renames no declared variable. -/
theorem TypeVar.rename_counter (c k : Nat) (v : TypeVar) : v.rename (.counter c k) = v := rfl

/-- Renaming for another counter is renumbering a type. -/
theorem Ty.rename_counter (c k : Nat) (t : Ty) : t.rename (.counter c k) = t.renumber (lift c k) :=
  Ty.rename_eq_renumber fun _ _ => rfl

/-- Renaming for another counter is renumbering an applied declaration. -/
theorem Nominal.rename_counter (c k : Nat) (n : Nominal) :
    n.rename (.counter c k) = n.renumber (lift c k) :=
  Nominal.rename_eq_renumber fun _ _ => rfl

end Fixed

/-! ## Telling types apart -/

section Injective

variable {ρ : Renaming}

/-- Declared variables that are renamed alike are the same. -/
theorem TypeVar.rename_inj {v w : TypeVar} : v.rename ρ = w.rename ρ ↔ v = w := by
  obtain ⟨decl, name, slot⟩ := v
  obtain ⟨decl', name', slot'⟩ := w
  constructor
  · intro h
    simp only [TypeVar.rename, TypeVar.mk.injEq] at h
    obtain ⟨rfl, hname, rfl⟩ := h
    rw [ρ.injective decl hname]
  · rintro h
    rw [h]

/-- Variables that are renamed alike are the same. -/
theorem Var.rename_inj {v w : Var} : v.rename ρ = w.rename ρ ↔ v = w := by
  cases v <;> cases w <;> simp [TypeVar.rename_inj, ρ.number_injective.eq_iff]

/-- Keys that are renamed alike are the same. -/
theorem VarKey.rename_inj {k l : VarKey} : k.rename ρ = l.rename ρ ↔ k = l := by
  cases k with
  | declared decl name =>
    cases l with
    | declared decl' name' =>
      simp only [VarKey.rename, VarKey.declared.injEq]
      refine and_congr_right ?_
      rintro rfl
      exact (ρ.injective decl).eq_iff
    | captured => simp [VarKey.rename]
  | captured => cases l <;> simp [VarKey.rename, ρ.number_injective.eq_iff]

/-- Keys are compared as they were before renaming. -/
theorem VarKey.beq_rename (k l : VarKey) : (k.rename ρ == l.rename ρ) = (k == l) := by
  rw [Bool.eq_iff_iff, beq_iff_eq, beq_iff_eq, VarKey.rename_inj]

/-- The key of a renamed declared variable is the renamed key. -/
theorem TypeVar.key_rename (v : TypeVar) : (v.rename ρ).key = v.key.rename ρ := rfl

/-- Sites that are renumbered alike are the same. -/
theorem Site.renumber_inj {f : Nat → Nat} (hf : Function.Injective f) {s s' : Site} :
    s.renumber f = s'.renumber f ↔ s = s' := by
  obtain ⟨g, hg⟩ := hf.hasLeftInverse
  have hinverse : Function.LeftInverse (Site.renumber g) (Site.renumber f) := fun s => by
    rw [s.renumber_renumber, hg.comp_eq_id, s.renumber_id]
  exact hinverse.injective.eq_iff

mutual
/-- **Types that are renamed alike are the same.** -/
theorem Ty.rename_cancel : ∀ t u : Ty, t.rename ρ = u.rename ρ → t = u
  | .prim p, u, h => by cases u <;> simp at h ⊢; exact h
  | .null, u, h => by cases u <;> simp at h ⊢
  | .nominal _ _ args, u, h => by
    cases u with
    | nominal _ _ args' =>
      simp only [Ty.rename, Ty.nominal.injEq] at h
      rw [(Site.renumber_inj ρ.number_injective).1 h.1, h.2.1, Arg.renameAll_cancel args args' h.2.2]
    | _ => simp at h
  | .array elem, u, h => by
    cases u with
    | array elem' => rw [Ty.rename_cancel elem elem' (by simpa using h)]
    | _ => simp at h
  | .inter _ members, u, h => by
    cases u with
    | inter _ members' =>
      simp only [Ty.rename, Ty.inter.injEq] at h
      rw [(Site.renumber_inj ρ.number_injective).1 h.1, Ty.renameAll_cancel members members' h.2]
    | _ => simp at h
  | .var v, u, h => by
    cases u with
    | var w =>
      rw [Ty.rename_var, Ty.rename_var, Ty.var.injEq, Var.rename_inj] at h
      rw [h]
    | _ => simp at h

/-- Arguments that are renamed alike are the same. -/
theorem Arg.rename_cancel : ∀ a b : Arg, a.rename ρ = b.rename ρ → a = b
  | .type t, b, h => by
    cases b with
    | type u => rw [Ty.rename_cancel t u (by simpa using h)]
    | wild => simp at h
  | .wild upper lower, b, h => by
    cases b with
    | type => simp at h
    | wild upper' lower' =>
      simp only [Arg.rename, Arg.wild.injEq] at h
      rw [Ty.rename_cancel upper upper' h.1, Ty.rename_cancel lower lower' h.2]

/-- Lists of types that are renamed alike are the same. -/
theorem Ty.renameAll_cancel : ∀ ts us : List Ty, Ty.renameAll ρ ts = Ty.renameAll ρ us → ts = us
  | [], us, h => by
    cases us with
    | nil => rfl
    | cons => cases h
  | t :: ts, us, h => by
    cases us with
    | nil => cases h
    | cons u us =>
      simp only [Ty.renameAll, List.cons.injEq] at h
      rw [Ty.rename_cancel t u h.1, Ty.renameAll_cancel ts us h.2]

/-- Lists of arguments that are renamed alike are the same. -/
theorem Arg.renameAll_cancel : ∀ as bs : List Arg,
    Arg.renameAll ρ as = Arg.renameAll ρ bs → as = bs
  | [], bs, h => by
    cases bs with
    | nil => rfl
    | cons => cases h
  | a :: as, bs, h => by
    cases bs with
    | nil => cases h
    | cons b bs =>
      simp only [Arg.renameAll, List.cons.injEq] at h
      rw [Arg.rename_cancel a b h.1, Arg.renameAll_cancel as bs h.2]
end

/-- **Different types stay different.** -/
theorem Ty.rename_inj {t u : Ty} : t.rename ρ = u.rename ρ ↔ t = u :=
  ⟨Ty.rename_cancel t u, fun h => h ▸ rfl⟩

mutual
/-- Renamed types have one shape if they had before. -/
theorem Ty.sameShape_rename : ∀ a b : Ty,
    (a.rename ρ).sameShape (b.rename ρ) = a.sameShape b
  | .prim p, b => by cases b <;> simp [Ty.rename, Ty.sameShape]
  | .null, b => by cases b <;> simp [Ty.rename, Ty.sameShape]
  | .nominal site decl args, b => by
    cases b with
    | nominal site' decl' args' =>
      rw [Ty.rename, Ty.rename, Ty.sameShape, Ty.sameShape, Arg.sameShapeAll_rename]
    | _ => simp [Ty.rename, Ty.sameShape]
  | .array elem, b => by
    cases b with
    | array elem' => rw [Ty.rename, Ty.rename, Ty.sameShape, Ty.sameShape, Ty.sameShape_rename]
    | _ => simp [Ty.rename, Ty.sameShape]
  | .inter site members, b => by
    cases b with
    | inter site' members' =>
      rw [Ty.rename, Ty.rename, Ty.sameShape, Ty.sameShape, Ty.sameShapeAll_rename]
    | _ => simp [Ty.rename, Ty.sameShape]
  | .var v, b => by
    cases b with
    | var w =>
      rw [Ty.rename, Ty.rename, Ty.sameShape, Ty.sameShape, Var.key_rename, Var.key_rename,
        VarKey.beq_rename]
    | _ => simp [Ty.rename, Ty.sameShape]

/-- The same for arguments. -/
theorem Arg.sameShape_rename : ∀ a b : Arg,
    (a.rename ρ).sameShape (b.rename ρ) = a.sameShape b
  | .type t, b => by
    cases b with
    | type u => rw [Arg.rename, Arg.rename, Arg.sameShape, Arg.sameShape, Ty.sameShape_rename]
    | wild => simp [Arg.rename, Arg.sameShape]
  | .wild upper lower, b => by
    cases b with
    | type => simp [Arg.rename, Arg.sameShape]
    | wild upper' lower' =>
      rw [Arg.rename, Arg.rename, Arg.sameShape, Arg.sameShape, Ty.sameShape_rename,
        Ty.sameShape_rename]

/-- The same for lists of types. -/
theorem Ty.sameShapeAll_rename : ∀ as bs : List Ty,
    Ty.sameShapeAll (Ty.renameAll ρ as) (Ty.renameAll ρ bs) = Ty.sameShapeAll as bs
  | [], bs => by cases bs <;> simp [Ty.renameAll, Ty.sameShapeAll]
  | a :: as, bs => by
    cases bs with
    | nil => simp [Ty.renameAll, Ty.sameShapeAll]
    | cons b bs =>
      rw [Ty.renameAll, Ty.renameAll, Ty.sameShapeAll, Ty.sameShapeAll, Ty.sameShape_rename,
        Ty.sameShapeAll_rename]

/-- The same for lists of arguments. -/
theorem Arg.sameShapeAll_rename : ∀ as bs : List Arg,
    Arg.sameShapeAll (Arg.renameAll ρ as) (Arg.renameAll ρ bs) = Arg.sameShapeAll as bs
  | [], bs => by cases bs <;> simp [Arg.renameAll, Arg.sameShapeAll]
  | a :: as, bs => by
    cases bs with
    | nil => simp [Arg.renameAll, Arg.sameShapeAll]
    | cons b bs =>
      rw [Arg.renameAll, Arg.renameAll, Arg.sameShapeAll, Arg.sameShapeAll,
        Arg.sameShape_rename, Arg.sameShapeAll_rename]
end

/-- **Equality does not depend on the names.** -/
theorem Ty.equal_rename (a b : Ty) :
    (a.rename ρ).equal (b.rename ρ) = a.equal b := by
  rw [Ty.equal_eq_sameShape, Ty.equal_eq_sameShape, Ty.sameShape_rename]

/-! ## Substitution -/

/-- A renamed substitution gives what the substitution did, renamed. -/
theorem Subst.lookup_rename (σ : Subst) (v : Var) :
    (σ.rename ρ).lookup (v.rename ρ) = (σ.lookup v).map (Ty.rename ρ) := by
  simp only [Subst.lookup, Subst.rename, List.find?_map, Function.comp_def, Var.key_rename,
    VarKey.beq_rename, Option.map_map]

/-- Inserting renamed entries is renaming what was inserted. -/
theorem Subst.insert_rename (σ : Subst) (v : Var) (t : Ty) :
    (σ.rename ρ).insert (v.rename ρ) (t.rename ρ) = (σ.insert v t).rename ρ := by
  simp only [Subst.insert, Subst.rename, List.map_cons, List.filter_map, Var.key_rename,
    Function.comp_def]
  congr 3
  refine List.filter_congr fun e _ => ?_
  rw [bne, VarKey.beq_rename, bne]

/-- The same for several entries. -/
theorem Subst.insertAll_rename (pairs : List (Var × Ty)) (σ : Subst) :
    (σ.rename ρ).insertAll (pairs.map fun e => (e.1.rename ρ, e.2.rename ρ)) =
      (σ.insertAll pairs).rename ρ := by
  induction pairs generalizing σ with
  | nil => rfl
  | cons e pairs ih =>
    simp only [List.map_cons, Subst.insertAll, List.foldl_cons] at ih ⊢
    rw [Subst.insert_rename]
    exact ih _

/-- Renamed variables paired with renamed types are the renamed substitution. -/
theorem Subst.zip_rename (vars : List TypeVar) (ts : List Ty) :
    Subst.zip (vars.map (TypeVar.rename ρ)) (ts.map (Ty.rename ρ)) = (Subst.zip vars ts).rename ρ := by
  have hpairs : ((vars.map (TypeVar.rename ρ)).map Var.declared).zip (ts.map (Ty.rename ρ)) =
      ((vars.map Var.declared).zip ts).map fun e => (e.1.rename ρ, e.2.rename ρ) := by
    rw [List.map_map, show Var.declared ∘ TypeVar.rename ρ = Var.rename ρ ∘ Var.declared from rfl,
      ← List.map_map, List.zip_map]
    rfl
  rw [Subst.zip, hpairs]
  exact Subst.insertAll_rename _ {}

mutual
/-- **A substitution with other names does the same to a type with other names.** -/
theorem Ty.subst?_rename (σ : Subst) (site : Site) : ∀ t : Ty,
    (t.rename ρ).subst? (σ.rename ρ) (site.renumber ρ.number) =
      (t.subst? σ site).map (Ty.rename ρ)
  | .prim p => by simp [Ty.rename, Ty.subst?]
  | .null => by simp [Ty.rename, Ty.subst?]
  | .nominal st decl args => by
    rw [Ty.rename, Ty.subst?, Ty.subst?, Arg.substAll?_rename]
    cases Arg.substAll? σ site 0 args <;> simp [Ty.rename]
  | .array elem => by
    rw [Ty.rename, Ty.subst?, Ty.subst?, Ty.subst?_rename]
    cases elem.subst? σ site <;> simp
  | .inter st members => by
    rw [Ty.rename, Ty.subst?, Ty.subst?, Ty.substAll?_rename]
    cases Ty.substAll? σ site 0 members <;> simp [Ty.renameAll_eq_map, Ty.meet_rename]
  | .var v => by
    rw [Ty.rename, Ty.subst?, Ty.subst?, Subst.lookup_rename]
    cases h : σ.lookup v with
    | none => rfl
    | some t =>
      have hiff : t.rename ρ = .var (v.rename ρ) ↔ t = .var v := by
        rw [← Ty.rename_var, Ty.rename_inj]
      by_cases ht : t = .var v <;> simp [Option.filter, ht, hiff]

/-- **Substituting after renaming is renaming after substituting**, for arguments. -/
theorem Arg.subst?_rename (σ : Subst) (site : Site) : ∀ a : Arg,
    (a.rename ρ).subst? (σ.rename ρ) (site.renumber ρ.number) =
      (a.subst? σ site).map (Arg.rename ρ)
  | .type t => by
    rw [Arg.rename, Arg.subst?, Arg.subst?, Ty.subst?_rename]
    cases t.subst? σ site <;> simp
  | .wild upper lower => by
    rw [Arg.rename, Arg.subst?, Arg.subst?, ← Site.renumber_part, ← Site.renumber_part,
      Ty.subst?_rename, Ty.subst?_rename]
    cases upper.subst? σ (site.part 0) <;> cases lower.subst? σ (site.part 1) <;> simp

/-- The same for lists of types. -/
theorem Ty.substAll?_rename (σ : Subst) (site : Site) :
    ∀ (i : Nat) (ts : List Ty),
    Ty.substAll? (σ.rename ρ) (site.renumber ρ.number) i (Ty.renameAll ρ ts) =
      (Ty.substAll? σ site i ts).map (Ty.renameAll ρ)
  | _, [] => rfl
  | i, t :: ts => by
    rw [Ty.renameAll, Ty.substAll?, Ty.substAll?, ← Site.renumber_part, Ty.subst?_rename,
      Ty.substAll?_rename]
    cases t.subst? σ (site.part i) <;> cases Ty.substAll? σ site (i + 1) ts <;> simp [Ty.renameAll]

/-- The same for lists of arguments. -/
theorem Arg.substAll?_rename (σ : Subst) (site : Site) :
    ∀ (i : Nat) (as : List Arg),
    Arg.substAll? (σ.rename ρ) (site.renumber ρ.number) i (Arg.renameAll ρ as) =
      (Arg.substAll? σ site i as).map (Arg.renameAll ρ)
  | _, [] => rfl
  | i, a :: as => by
    rw [Arg.renameAll, Arg.substAll?, Arg.substAll?, ← Site.renumber_part, Arg.subst?_rename,
      Arg.substAll?_rename]
    cases a.subst? σ (site.part i) <;> cases Arg.substAll? σ site (i + 1) as <;> simp [Arg.renameAll]
end

/-- The same for applied declarations. -/
theorem Nominal.subst?_rename (σ : Subst) (site : Site) (n : Nominal) :
    (n.rename ρ).subst? (σ.rename ρ) (site.renumber ρ.number) =
      (n.subst? σ site).map (Nominal.rename ρ) := by
  have hargs := Arg.substAll?_rename (ρ := ρ) σ site 0 n.args
  rw [Arg.renameAll_eq_map] at hargs
  rw [Nominal.subst?, Nominal.rename, hargs, Nominal.subst?]
  cases Arg.substAll? σ site 0 n.args <;> simp [Nominal.rename, Arg.renameAll_eq_map]

end Injective

end Generics
