/-
# Substitution of variables

A `Subst` gives types to variables, which it recognises by their keys. `Ty.subst?` answers
`none` when nothing changes, that is when every variable of the type is either not given a
type or given itself; otherwise it answers the type with the variables replaced, where
intersections that changed are flattened again. `Ty.subst` is the type afterwards in both
cases. What changed is built anew: it stands at the given site, and its parts that changed
stand at the parts of that site.
-/

import Generics.Type.Identity
import Generics.Type.Printer

namespace Generics

/-- Types given to variables, at most one for each key. -/
structure Subst where
  entries : List (Var × Ty) := []

namespace Subst

/-- The type given to a variable. -/
def lookup (σ : Subst) (v : Var) : Option Ty :=
  (σ.entries.find? fun entry => entry.1.key == v.key).map Prod.snd

/-- Gives a type to a variable, in place of the one it had. -/
def insert (σ : Subst) (v : Var) (t : Ty) : Subst :=
  ⟨(v, t) :: σ.entries.filter fun entry => entry.1.key != v.key⟩

/-- Gives types to variables in order, the later ones in place of the earlier ones. -/
def insertAll (σ : Subst) (pairs : List (Var × Ty)) : Subst :=
  pairs.foldl (fun σ pair => σ.insert pair.1 pair.2) σ

/-- The variables paired with types, as far as both go. -/
def zip (vars : List TypeVar) (types : List Ty) : Subst :=
  insertAll {} ((vars.map Var.declared).zip types)

/-- Number of variables that are given a type. -/
def size (σ : Subst) : Nat := σ.entries.length

/-- The variables with their types as text, oldest first. -/
def render (σ : Subst) : String :=
  "[" ++ ", ".intercalate (σ.entries.reverse.map fun (v, t) => v.name ++ " := " ++ t.render)
    ++ "]"

end Subst

mutual
/-- The type with its variables replaced, or nothing if it stays as it is. -/
def Ty.subst? (σ : Subst) (site : Site) : Ty → Option Ty
  | .prim _ => none
  | .null => none
  | .nominal _ decl args => (Arg.substAll? σ site 0 args).map (.nominal site decl)
  | .array elem => (elem.subst? σ site).map .array
  | .inter _ members => (Ty.substAll? σ site 0 members).map (Ty.meet site)
  | .var v => (σ.lookup v).filter (· ≠ .var v)

/-- The argument with its variables replaced, or nothing if it stays as it is. -/
def Arg.subst? (σ : Subst) (site : Site) : Arg → Option Arg
  | .type t => (t.subst? σ site).map .type
  | .wild upper lower =>
    match upper.subst? σ (site.part 0), lower.subst? σ (site.part 1) with
    | none, none => none
    | upper', lower' => some (.wild (upper'.getD upper) (lower'.getD lower))

/-- The members from a position on with their variables replaced, or nothing if all stay as they
are. -/
def Ty.substAll? (σ : Subst) (site : Site) (i : Nat) : List Ty → Option (List Ty)
  | [] => none
  | t :: ts =>
    match t.subst? σ (site.part i), Ty.substAll? σ site (i + 1) ts with
    | none, none => none
    | t', ts' => some (t'.getD t :: ts'.getD ts)

/-- The arguments from a position on with their variables replaced, or nothing if all stay as
they are. -/
def Arg.substAll? (σ : Subst) (site : Site) (i : Nat) : List Arg → Option (List Arg)
  | [] => none
  | a :: as =>
    match a.subst? σ (site.part i), Arg.substAll? σ site (i + 1) as with
    | none, none => none
    | a', as' => some (a'.getD a :: as'.getD as)
end

/-- The type with its variables replaced. -/
def Ty.subst (σ : Subst) (site : Site) (t : Ty) : Ty := (t.subst? σ site).getD t

/-- The applied declaration with its variables replaced, or nothing if it stays as it is. -/
def Nominal.subst? (σ : Subst) (site : Site) (n : Nominal) : Option Nominal :=
  (Arg.substAll? σ site 0 n.args).map (⟨site, n.decl, ·⟩)

end Generics
