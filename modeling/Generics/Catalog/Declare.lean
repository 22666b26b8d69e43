/-
# Growing a catalog

Definitions are texts: a name, parameters with the texts of their bounds, and the texts of
the supertypes. `Registering.declare` takes several at once and works on the catalog step by step:
it checks names, reads texts, and then enters the declarations one after the other. What a step changed
stays when a later one fails. `Catalog.declare` is the outcome.

All names are settled before any text is read, so definitions may refer to each other in any
order. A bound or supertype may mention the parameters of its own declaration. Refused are
a declaration without a name, a name that is taken, a text that cannot be read, a parameter
bounded by itself, a supertype that is the declaration itself, and a supertype with a
wildcard as an argument.
-/

import Generics.Catalog.Bounds
import Generics.Expr.Parser

namespace Generics

variable [Alphabet]

/-- A parameter as text. Without a bound it is bounded by the top declaration. -/
structure ParamDefinition where
  name : String := ""
  bound : String := ""
deriving DecidableEq, Repr

/-- A declaration as text. -/
structure Definition where
  name : String := ""
  params : List ParamDefinition := []
  parents : List String := []
deriving DecidableEq, Repr

namespace Definition

/-- The variables that the parameters of a definition become. -/
def vars (d : Definition) : List TypeVar :=
  d.params.mapIdx fun i p => ⟨d.name, p.name, .param i⟩

/-- Reads the bound of a parameter. -/
def readParam (d : Definition) (known : String → Bool) (i : Nat) (p : ParamDefinition) :
    Except Failure Parameter :=
  if p.bound = "" then .ok ⟨p.name, .object⟩
  else match Expr.parse (.bound d.name i) known d.vars p.bound with
    | .ok t => .ok ⟨p.name, t⟩
    | .error f => .error (.within ("bound of " ++ p.name ++ " in " ++ d.name) f)

/-- Reads the bounds of some parameters, the first of which has the given position. -/
def readParams (d : Definition) (known : String → Bool) :
    Nat → List ParamDefinition → Except Failure (List Parameter)
  | _, [] => .ok []
  | i, p :: ps =>
    match d.readParam known i p with
    | .error f => .error f
    | .ok param => (d.readParams known (i + 1) ps).map (param :: ·)

/-- Reads a supertype. -/
def readParent (d : Definition) (known : String → Bool) (i : Nat) (text : String) :
    Except Failure Nominal :=
  match Expr.parseNominal (.parent d.name i) known d.vars text with
  | .error f => .error (.within ("supertype of " ++ d.name) f)
  | .ok n =>
    if n.decl = d.name then .error (.malformed text "a declaration cannot extend itself")
    else if n.hasWild then .error (.malformed text "a supertype cannot have wildcard arguments")
    else .ok n

/-- Reads some supertypes, the first of which has the given position. -/
def readParents (d : Definition) (known : String → Bool) :
    Nat → List String → Except Failure (List Nominal)
  | _, [] => .ok []
  | i, text :: texts =>
    match d.readParent known i text with
    | .error f => .error f
    | .ok n => (d.readParents known (i + 1) texts).map (n :: ·)

/-- The first parameter that is bounded by itself. -/
def selfBounded? (d : Definition) (params : List Parameter) : Option TypeVar :=
  let alone : Catalog := { decls := [⟨d.name, params, []⟩] }
  d.vars.find? alone.selfBounded

/-- Reads a definition, given the names that are declarations: first all bounds, then all
supertypes. -/
def read (d : Definition) (known : String → Bool) : Except Failure Declaration :=
  match d.readParams known 0 d.params with
  | .error f => .error f
  | .ok params =>
    match d.selfBounded? params with
    | some v =>
      .error (.plain ("cyclic bound for type variable " ++ v.name ++ " in " ++ d.name))
    | none => (d.readParents known 0 d.parents).map (⟨d.name, params, ·⟩)

end Definition

namespace Catalog

/-- Checks the name of a definition, given the names that were accepted before. -/
def checkName (c : Catalog) (accepted : List String) (d : Definition) : Except Failure Unit :=
  if d.name = "" then .error (.plain "declaration without a name")
  else if c.has d.name then .error (.plain ("declaration " ++ d.name ++ " already exists"))
  else if d.name ∈ accepted then .error (.plain ("declaration " ++ d.name ++ " is defined twice"))
  else .ok ()

/-- The names that definitions may refer to: those declared and those being declared. -/
def knows (c : Catalog) (defs : List Definition) (name : String) : Bool :=
  c.has name || (defs.any fun d => d.name == name)

/-- The catalog with a declaration entered. -/
def enter (c : Catalog) (d : Declaration) : Catalog := { c with decls := c.decls ++ [d] }

end Catalog

/-- Steps on a catalog, which may fail; what they changed until then stays. -/
abbrev Registering := ExceptT Failure (StateM Catalog)

namespace Registering

/-- A check of the catalog as it is. -/
def check {α : Type} (f : Catalog → Except Failure α) : Registering α := fun c => (f c, c)

/-- Checks the names of some definitions, given those that were accepted before. -/
def names (accepted : List String) : List Definition → Registering Unit
  | [] => return
  | d :: ds => do
    check fun c => c.checkName accepted d
    names (d.name :: accepted) ds

/-- Reads some of the definitions that are being declared, in order. -/
def texts (defs : List Definition) : List Definition → Registering (List Declaration)
  | [] => return []
  | d :: ds => do
    let decl ← check fun c => d.read (c.knows defs)
    return decl :: (← texts defs ds)

/-- Enters some declarations, in order. -/
def entries : List Declaration → Registering Unit
  | [] => return
  | d :: ds => do
    modify fun c => c.enter d
    entries ds

/-- Adds all of the definitions, or fails. -/
def declare (defs : List Definition) : Registering Unit := do
  names [] defs
  let decls ← texts defs defs
  entries decls

end Registering

namespace Catalog

/-- Adds all of the definitions, or fails. -/
def declare (c : Catalog) (defs : List Definition) : Except Failure Catalog :=
  match Registering.declare defs c with
  | (.ok (), c') => .ok c'
  | (.error f, _) => .error f

end Catalog

end Generics
