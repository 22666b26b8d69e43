/-
# Other numbers for captured variables

Captured variables are known by number, and the sites of their bounds carry these numbers.
`Ty.renumber` puts other numbers in their place, in a type and in all that is built from types. Other
numbers can be put back (`Ty.renumber_leftInverse`), and a type in which all numbers stay stays as it is
(`Ty.renumber_eq_self`).
-/

import Generics.Proofs.Reflexivity

namespace Generics

section Definitions

variable (f : Nat → Nat)

/-- The place with other numbers. -/
def Place.renumber : Place → Place
  | .capture id => .capture (f id)
  | p => p

/-- The site with other numbers. -/
def Site.renumber (s : Site) : Site := { s with place := s.place.renumber f }

/-- The variable with another number. -/
def Var.renumber : Var → Var
  | .declared v => .declared v
  | .captured id => .captured (f id)

mutual
/-- The type with other numbers. -/
def Ty.renumber : Ty → Ty
  | .prim p => .prim p
  | .null => .null
  | .nominal site decl args => .nominal (site.renumber f) decl (Arg.renumberAll args)
  | .array elem => .array elem.renumber
  | .inter site members => .inter (site.renumber f) (Ty.renumberAll members)
  | .var v => .var (v.renumber f)

/-- The argument with other numbers. -/
def Arg.renumber : Arg → Arg
  | .type t => .type t.renumber
  | .wild upper lower => .wild upper.renumber lower.renumber

/-- The types with other numbers. -/
def Ty.renumberAll : List Ty → List Ty
  | [] => []
  | t :: ts => t.renumber :: Ty.renumberAll ts

/-- The arguments with other numbers. -/
def Arg.renumberAll : List Arg → List Arg
  | [] => []
  | a :: as => a.renumber :: Arg.renumberAll as
end

/-- The applied declaration with other numbers. -/
def Nominal.renumber (n : Nominal) : Nominal := ⟨n.site.renumber f, n.decl, n.args.map (Arg.renumber f)⟩

/-- The captured variable with other numbers. -/
def Captured.renumber (x : Captured) : Captured :=
  ⟨f x.id, x.upper.renumber f, x.lower.renumber f⟩

end Definitions

/-- The number in a site. -/
def Site.numbers (s : Site) : List Nat :=
  match s.place with
  | .capture id => [id]
  | _ => []

/-- The number of a variable. -/
def Var.numbers : Var → List Nat
  | .declared _ => []
  | .captured id => [id]

mutual
/-- The numbers in a type: of its captured variables and of its sites. -/
def Ty.numbers : Ty → List Nat
  | .prim _ => []
  | .null => []
  | .nominal site _ args => site.numbers ++ Arg.numbersAll args
  | .array elem => elem.numbers
  | .inter site members => site.numbers ++ Ty.numbersAll members
  | .var v => v.numbers

/-- The numbers in an argument. -/
def Arg.numbers : Arg → List Nat
  | .type t => t.numbers
  | .wild upper lower => upper.numbers ++ lower.numbers

/-- The numbers in some types. -/
def Ty.numbersAll : List Ty → List Nat
  | [] => []
  | t :: ts => t.numbers ++ Ty.numbersAll ts

/-- The numbers in some arguments. -/
def Arg.numbersAll : List Arg → List Nat
  | [] => []
  | a :: as => a.numbers ++ Arg.numbersAll as
end

section Equations

variable (f : Nat → Nat)

/-- Arguments are renumbered one by one. -/
theorem Arg.renumberAll_eq_map (as : List Arg) : Arg.renumberAll f as = as.map (Arg.renumber f) := by
  induction as with
  | nil => rfl
  | cons a as ih => exact congrArg (a.renumber f :: ·) ih

/-- Types are renumbered one by one. -/
theorem Ty.renumberAll_eq_map (ts : List Ty) : Ty.renumberAll f ts = ts.map (Ty.renumber f) := by
  induction ts with
  | nil => rfl
  | cons t ts ih => exact congrArg (t.renumber f :: ·) ih

/-- Renumbering goes into the site and the arguments of a declaration. -/
@[simp] theorem Ty.renumber_nominal (site : Site) (decl : String) (args : List Arg) :
    (Ty.nominal site decl args).renumber f =
      .nominal (site.renumber f) decl (args.map (Arg.renumber f)) :=
  congrArg (Ty.nominal _ decl) (Arg.renumberAll_eq_map f args)

/-- Renumbering goes into the site and the members of an intersection. -/
@[simp] theorem Ty.renumber_inter (site : Site) (members : List Ty) :
    (Ty.inter site members).renumber f = .inter (site.renumber f) (members.map (Ty.renumber f)) :=
  congrArg (Ty.inter _) (Ty.renumberAll_eq_map f members)

/-- Primitive types have no numbers. -/
@[simp] theorem Ty.renumber_prim (p : Primitive) : (Ty.prim p).renumber f = .prim p := rfl

/-- The null type has no number. -/
@[simp] theorem Ty.renumber_null : Ty.null.renumber f = .null := rfl

/-- Renumbering goes into the elements of an array. -/
@[simp] theorem Ty.renumber_array (elem : Ty) :
    (Ty.array elem).renumber f = .array (elem.renumber f) := rfl

/-- A variable that is taken as a type is renumbered as a variable. -/
@[simp] theorem Ty.renumber_var (v : Var) : (Ty.var v).renumber f = .var (v.renumber f) := rfl

/-- Renumbering goes into an argument that is a type. -/
@[simp] theorem Arg.renumber_type (t : Ty) : (Arg.type t).renumber f = .type (t.renumber f) := rfl

/-- Renumbering goes into both bounds of a wildcard. -/
@[simp] theorem Arg.renumber_wild (upper lower : Ty) :
    (Arg.wild upper lower).renumber f = .wild (upper.renumber f) (lower.renumber f) := rfl

/-- Declared variables have no numbers. -/
@[simp] theorem Var.renumber_declared (v : TypeVar) :
    (Var.declared v).renumber f = .declared v := rfl

/-- A captured variable gets another number. -/
@[simp] theorem Var.renumber_captured (id : Nat) :
    (Var.captured id).renumber f = .captured (f id) := rfl

/-- The site of what is shared has no number. -/
@[simp] theorem Site.renumber_common : Site.common.renumber f = .common := rfl

/-- The sites of the parts are renumbered with the site. -/
theorem Site.renumber_part (site : Site) (i : Nat) :
    (site.part i).renumber f = (site.renumber f).part i := rfl

/-- Renumbering an applied declaration is renumbering it as a type. -/
@[simp] theorem Nominal.toTy_renumber (n : Nominal) : (n.renumber f).toTy = n.toTy.renumber f := by
  simp [Nominal.toTy, Nominal.renumber]

/-- The number in a renumbered site is the new one. -/
theorem Site.numbers_renumber (site : Site) : (site.renumber f).numbers = site.numbers.map f := by
  obtain ⟨place, path⟩ := site
  cases place <;> rfl

/-- The number of a renumbered variable is the new one. -/
theorem Var.numbers_renumber (v : Var) : (v.renumber f).numbers = v.numbers.map f := by
  cases v <;> rfl

mutual
/-- The numbers in a renumbered type are the new ones, in order. -/
theorem Ty.numbers_renumber : ∀ t : Ty, (t.renumber f).numbers = t.numbers.map f
  | .prim p => by rw [Ty.renumber, Ty.numbers, List.map_nil]
  | .null => by rw [Ty.renumber, Ty.numbers, List.map_nil]
  | .nominal site decl args => by
    rw [Ty.renumber, Ty.numbers, Ty.numbers, Site.numbers_renumber, Arg.numbersAll_renumber,
      List.map_append]
  | .array elem => by rw [Ty.renumber, Ty.numbers, Ty.numbers, Ty.numbers_renumber]
  | .inter site members => by
    rw [Ty.renumber, Ty.numbers, Ty.numbers, Site.numbers_renumber, Ty.numbersAll_renumber,
      List.map_append]
  | .var v => by rw [Ty.renumber, Ty.numbers, Ty.numbers, Var.numbers_renumber]

/-- The same for arguments. -/
theorem Arg.numbers_renumber : ∀ a : Arg, (a.renumber f).numbers = a.numbers.map f
  | .type t => by rw [Arg.renumber, Arg.numbers, Arg.numbers, Ty.numbers_renumber]
  | .wild upper lower => by
    rw [Arg.renumber, Arg.numbers, Arg.numbers, Ty.numbers_renumber, Ty.numbers_renumber,
      List.map_append]

/-- The same for lists of types. -/
theorem Ty.numbersAll_renumber : ∀ ts : List Ty,
    Ty.numbersAll (Ty.renumberAll f ts) = (Ty.numbersAll ts).map f
  | [] => rfl
  | t :: ts => by
    rw [Ty.renumberAll, Ty.numbersAll, Ty.numbersAll, Ty.numbers_renumber, Ty.numbersAll_renumber,
      List.map_append]

/-- The same for lists of arguments. -/
theorem Arg.numbersAll_renumber : ∀ as : List Arg,
    Arg.numbersAll (Arg.renumberAll f as) = (Arg.numbersAll as).map f
  | [] => rfl
  | a :: as => by
    rw [Arg.renumberAll, Arg.numbersAll, Arg.numbersAll, Arg.numbers_renumber, Arg.numbersAll_renumber,
      List.map_append]
end

end Equations

/-! ## Renumbering twice, and not at all -/

section Composition

variable {f g : Nat → Nat}

/-- Renumbering a site depends only on what becomes of its number. -/
theorem Site.renumber_congr {site : Site} (h : ∀ i ∈ site.numbers, f i = g i) :
    site.renumber f = site.renumber g := by
  obtain ⟨place, path⟩ := site
  cases place with
  | capture id => simp [Site.renumber, Place.renumber, h id (by simp [Site.numbers])]
  | _ => rfl

/-- Renumbering a variable depends only on what becomes of its number. -/
theorem Var.renumber_congr {v : Var} (h : ∀ i ∈ v.numbers, f i = g i) :
    v.renumber f = v.renumber g := by
  cases v with
  | declared v => rfl
  | captured id => simp [h id (by simp [Var.numbers])]

mutual
/-- Numbers that do not occur in a type do not matter. -/
theorem Ty.renumber_congr : ∀ {t : Ty}, (∀ i ∈ t.numbers, f i = g i) → t.renumber f = t.renumber g
  | .prim p, _ => by simp
  | .null, _ => by simp
  | .nominal site decl args, h => by
    simp only [Ty.numbers, List.mem_append] at h
    rw [Ty.renumber, Ty.renumber, Site.renumber_congr fun i hi => h i (.inl hi),
      Arg.renumberAll_congr fun i hi => h i (.inr hi)]
  | .array elem, h => by
    rw [Ty.numbers] at h
    rw [Ty.renumber, Ty.renumber, Ty.renumber_congr h]
  | .inter site members, h => by
    simp only [Ty.numbers, List.mem_append] at h
    rw [Ty.renumber, Ty.renumber, Site.renumber_congr fun i hi => h i (.inl hi),
      Ty.renumberAll_congr fun i hi => h i (.inr hi)]
  | .var v, h => by
    rw [Ty.numbers] at h
    rw [Ty.renumber, Ty.renumber, Var.renumber_congr h]

/-- Renumbering an argument depends only on what becomes of the numbers in it. -/
theorem Arg.renumber_congr : ∀ {a : Arg}, (∀ i ∈ a.numbers, f i = g i) → a.renumber f = a.renumber g
  | .type t, h => by
    rw [Arg.numbers] at h
    rw [Arg.renumber, Arg.renumber, Ty.renumber_congr h]
  | .wild upper lower, h => by
    simp only [Arg.numbers, List.mem_append] at h
    rw [Arg.renumber, Arg.renumber, Ty.renumber_congr fun i hi => h i (.inl hi),
      Ty.renumber_congr fun i hi => h i (.inr hi)]

/-- The same for lists of types. -/
theorem Ty.renumberAll_congr : ∀ {ts : List Ty}, (∀ i ∈ Ty.numbersAll ts, f i = g i) →
    Ty.renumberAll f ts = Ty.renumberAll g ts
  | [], _ => rfl
  | t :: ts, h => by
    simp only [Ty.numbersAll, List.mem_append] at h
    rw [Ty.renumberAll, Ty.renumberAll, Ty.renumber_congr fun i hi => h i (.inl hi),
      Ty.renumberAll_congr fun i hi => h i (.inr hi)]

/-- The same for lists of arguments. -/
theorem Arg.renumberAll_congr : ∀ {as : List Arg}, (∀ i ∈ Arg.numbersAll as, f i = g i) →
    Arg.renumberAll f as = Arg.renumberAll g as
  | [], _ => rfl
  | a :: as, h => by
    simp only [Arg.numbersAll, List.mem_append] at h
    rw [Arg.renumberAll, Arg.renumberAll, Arg.renumber_congr fun i hi => h i (.inl hi),
      Arg.renumberAll_congr fun i hi => h i (.inr hi)]
end

/-- Renumbering a site twice is renumbering it once. -/
theorem Site.renumber_renumber (site : Site) :
    (site.renumber f).renumber g = site.renumber (g ∘ f) := by
  obtain ⟨place, path⟩ := site
  cases place <;> rfl

/-- A site whose number stays is the same. -/
theorem Site.renumber_id (site : Site) : site.renumber id = site := by
  obtain ⟨place, path⟩ := site
  cases place <;> rfl

mutual
/-- Renumbering a type twice is renumbering it once. -/
theorem Ty.renumber_renumber : ∀ t : Ty, (t.renumber f).renumber g = t.renumber (g ∘ f)
  | .prim p => by simp
  | .null => by simp
  | .nominal site decl args => by
    rw [Ty.renumber, Ty.renumber, Ty.renumber, Site.renumber_renumber, Arg.renumberAll_renumberAll]
  | .array elem => by rw [Ty.renumber, Ty.renumber, Ty.renumber, Ty.renumber_renumber]
  | .inter site members => by
    rw [Ty.renumber, Ty.renumber, Ty.renumber, Site.renumber_renumber, Ty.renumberAll_renumberAll]
  | .var v => by cases v <;> simp

/-- The same for arguments. -/
theorem Arg.renumber_renumber : ∀ a : Arg, (a.renumber f).renumber g = a.renumber (g ∘ f)
  | .type t => by rw [Arg.renumber, Arg.renumber, Arg.renumber, Ty.renumber_renumber]
  | .wild upper lower => by
    rw [Arg.renumber, Arg.renumber, Arg.renumber, Ty.renumber_renumber, Ty.renumber_renumber]

/-- The same for lists of types. -/
theorem Ty.renumberAll_renumberAll : ∀ ts : List Ty,
    Ty.renumberAll g (Ty.renumberAll f ts) = Ty.renumberAll (g ∘ f) ts
  | [] => rfl
  | t :: ts => by
    rw [Ty.renumberAll, Ty.renumberAll, Ty.renumberAll, Ty.renumber_renumber,
      Ty.renumberAll_renumberAll]

/-- The same for lists of arguments. -/
theorem Arg.renumberAll_renumberAll : ∀ as : List Arg,
    Arg.renumberAll g (Arg.renumberAll f as) = Arg.renumberAll (g ∘ f) as
  | [] => rfl
  | a :: as => by
    rw [Arg.renumberAll, Arg.renumberAll, Arg.renumberAll, Arg.renumber_renumber,
      Arg.renumberAll_renumberAll]
end

mutual
/-- A type whose numbers stay is the same. -/
theorem Ty.renumber_id : ∀ t : Ty, t.renumber id = t
  | .prim p => by simp
  | .null => by simp
  | .nominal site decl args => by rw [Ty.renumber, Site.renumber_id, Arg.renumberAll_id]
  | .array elem => by rw [Ty.renumber, Ty.renumber_id]
  | .inter site members => by rw [Ty.renumber, Site.renumber_id, Ty.renumberAll_id]
  | .var v => by cases v <;> simp

/-- The same for arguments. -/
theorem Arg.renumber_id : ∀ a : Arg, a.renumber id = a
  | .type t => by rw [Arg.renumber, Ty.renumber_id]
  | .wild upper lower => by rw [Arg.renumber, Ty.renumber_id, Ty.renumber_id]

/-- The same for lists of types. -/
theorem Ty.renumberAll_id : ∀ ts : List Ty, Ty.renumberAll id ts = ts
  | [] => rfl
  | t :: ts => by rw [Ty.renumberAll, Ty.renumber_id, Ty.renumberAll_id]

/-- The same for lists of arguments. -/
theorem Arg.renumberAll_id : ∀ as : List Arg, Arg.renumberAll id as = as
  | [] => rfl
  | a :: as => by rw [Arg.renumberAll, Arg.renumber_id, Arg.renumberAll_id]
end

/-- Other numbers can be put back. -/
theorem Ty.renumber_leftInverse (h : Function.LeftInverse g f) :
    Function.LeftInverse (Ty.renumber g) (Ty.renumber f) := fun t => by
  rw [t.renumber_renumber, h.comp_eq_id, t.renumber_id]

/-- Numbers that can be got back give back the applied declaration. -/
theorem Nominal.renumber_leftInverse (h : Function.LeftInverse g f) :
    Function.LeftInverse (Nominal.renumber g) (Nominal.renumber f) := by
  rintro ⟨site, decl, args⟩
  simp only [Nominal.renumber, Site.renumber_renumber, ← Arg.renumberAll_eq_map,
    Arg.renumberAll_renumberAll, h.comp_eq_id, Site.renumber_id, Arg.renumberAll_id]

/-- **A type in which all numbers stay stays as it is.** -/
theorem Ty.renumber_eq_self {t : Ty} (h : ∀ i ∈ t.numbers, f i = i) : t.renumber f = t :=
  (Ty.renumber_congr h).trans t.renumber_id

end Composition

/-- The numbers in an applied declaration. -/
def Nominal.numbers (n : Nominal) : List Nat := n.toTy.numbers

/-- An applied declaration whose numbers stay is the same. -/
theorem Nominal.renumber_eq_self {f : Nat → Nat} {n : Nominal} (h : ∀ i ∈ n.numbers, f i = i) :
    n.renumber f = n := by
  have hty : n.toTy.renumber f = n.toTy := Ty.renumber_eq_self h
  rw [← Nominal.toTy_renumber] at hty
  obtain ⟨site, decl, args⟩ := n
  simpa [Nominal.toTy, Nominal.renumber] using hty


end Generics
