/-
# Catalogs of declarations

A catalog holds the declarations that types are built from: for each name its parameters,
with their upper bounds, and the supertypes it lists, written over its own parameters. It
also holds the bounds of variables that stand outside any declaration.

A catalog may be faulty: parts of a declaration can be marked as unreadable, and reading them
then fails with the given reason. Nothing else about a catalog is checked here; a catalog
grown by `Catalog.declare` is sound.
-/

import Generics.Failure
import Generics.Type.Identity

namespace Generics

/-- A parameter of a declaration with its upper bound. -/
structure Parameter where
  name : String
  upper : Ty := .object
deriving DecidableEq

/-- A declaration: its parameters and the supertypes it lists. -/
structure Declaration where
  name : String
  params : List Parameter := []
  parents : List Nominal := []
deriving DecidableEq

namespace Declaration

/-- The variables that the parameters of a declaration are. -/
def vars (d : Declaration) : List TypeVar :=
  d.params.mapIdx fun i p => ⟨d.name, p.name, .param i⟩

end Declaration

/-- A part of a declaration that is read on its own. -/
inductive Part
  | params
  | parents
deriving DecidableEq, Repr

/-- An unreadable part of a declaration, and why it is unreadable. -/
structure Fault where
  decl : String
  part : Part
  reason : String
deriving DecidableEq, Repr

/-- A catalog of declarations. -/
structure Catalog where
  decls : List Declaration := []
  /-- The bounds of the variables outside any declaration, by number. -/
  free : List Ty := []
  faults : List Fault := []
deriving DecidableEq

namespace Catalog

/-- The declaration of a name. -/
def find? (c : Catalog) (name : String) : Option Declaration :=
  c.decls.find? fun d => d.name == name

/-- Whether a name is declared. -/
def has (c : Catalog) (name : String) : Bool := (c.find? name).isSome

/-- The declaration of a name, or the failure that there is none. -/
def get (c : Catalog) (name : String) : Except Failure Declaration :=
  match c.find? name with
  | some d => .ok d
  | none => .error (.plain ("no declaration named " ++ name))

/-- The reason why a part of a declaration is unreadable. -/
def fault? (c : Catalog) (name : String) (part : Part) : Option String :=
  (c.faults.find? fun f => f.decl == name && f.part == part).map Fault.reason

/-- The bound of a declared variable, if the catalog knows the variable. -/
def bound? (c : Catalog) (v : TypeVar) : Option Ty :=
  match v.slot with
  | .param i => (c.find? v.decl).bind fun d => (d.params[i]?).map Parameter.upper
  | .free n => c.free[n]?

/-- The upper bound of a declared variable. -/
def upper (c : Catalog) (v : TypeVar) : Ty := (c.bound? v).getD .object

/-- The variables of a declaration, none if it is not declared. -/
def varsOf (c : Catalog) (name : String) : List TypeVar :=
  ((c.find? name).map Declaration.vars).getD []

/-- The names declared, in order of the alphabet. -/
def names (c : Catalog) : List String := (c.decls.map Declaration.name).mergeSort (· ≤ ·)

/-- Adds a variable outside any declaration. -/
def addFree (c : Catalog) (decl name : String) (upper : Ty) : TypeVar × Catalog :=
  (⟨decl, name, .free c.free.length⟩, { c with free := c.free ++ [upper] })

end Catalog

end Generics
