/-
# Questions about types

A question is asked in a `Setting`: a catalog, the options, and how deep a walk may nest. While
it is answered, a `Memory` is kept:

- what was learnt about declarations, so that each is read from the catalog at most once;
- through which supertypes ancestors are reached, so that each way up is looked for at most once;
- which declarations were read, in order;
- the variables captured so far with their bounds, numbered from 1;
- how many types were built on the way.

A question either answers or fails, and the memory is kept in both cases: what was learnt
before the failure stays learnt, and numbers are never handed out twice. A declaration that
could not be read leaves nothing behind but the record that it was asked for, and neither does
a way up on which there is such a declaration.
-/

import Generics.Catalog.Basic
import Generics.Type.Printer
import Generics.Type.Substitution

namespace Generics

/-- What can be chosen about the answers. -/
structure Options where
  /-- How many constraints one inference may reduce. -/
  maxSteps : Nat := 10000
  /-- Whether inference looks at every branch even when the outcome is settled. -/
  exhaustive : Bool := false
  /-- The declarations that every array is a subtype of. -/
  arrayParents : List String := [objectName, "Cloneable", "Serializable"]
deriving DecidableEq, Repr

namespace Options

/-- The number of steps unless chosen otherwise. -/
def defaultSteps : Nat := 10000

/-- Chooses the number of steps; without any step left it is the default. -/
def withSteps (o : Options) (steps : Int) : Options :=
  { o with maxSteps := if steps ≤ 0 then defaultSteps else steps.toNat }

end Options

/-- What a question is asked in. -/
structure Setting where
  catalog : Catalog
  options : Options := {}
  /-- How deep comparisons may nest. -/
  depth : Nat := 100000

/-- What is learnt about a declaration: its parameters and its direct supertypes. -/
structure Lineage where
  decl : String
  params : List TypeVar
  parents : List Nominal
deriving DecidableEq

/-- What is learnt about the way up from a declaration to an ancestor: the direct supertype that
it goes through, or nothing if there is no way. -/
structure Route where
  decl : String
  ancestor : String
  parent : Option Nominal
deriving DecidableEq

/-- A captured variable with its bounds. -/
structure Captured where
  id : Nat
  upper : Ty
  lower : Ty
deriving DecidableEq

/-- What is kept from question to question. -/
structure Memory where
  /-- What was learnt about declarations. -/
  known : List Lineage := []
  /-- What was learnt about ways up. -/
  routes : List Route := []
  /-- The declarations whose parameters were asked for, newest first. -/
  asked : List String := []
  /-- The captured variables, newest first. -/
  captured : List Captured := []
  /-- The number of the newest captured variable. -/
  lastCaptured : Nat := 0
  /-- The number of the type built last. -/
  built : Nat := 0

/-- What is known about a declaration. -/
def Memory.lineage? (m : Memory) (decl : String) : Option Lineage :=
  m.known.find? fun l => l.decl == decl

/-- What is known about the way up from a declaration to an ancestor. -/
def Memory.route? (m : Memory) (decl ancestor : String) : Option Route :=
  m.routes.find? fun r => r.decl == decl && r.ancestor == ancestor

/-- The captured variable of a number. -/
def Memory.captured? (m : Memory) (id : Nat) : Option Captured :=
  m.captured.find? fun c => c.id == id

/-- The upper bound of a captured variable. -/
def Memory.upper (m : Memory) (id : Nat) : Ty := ((m.captured? id).map Captured.upper).getD .object

/-- The lower bound of a captured variable. -/
def Memory.lower (m : Memory) (id : Nat) : Ty := ((m.captured? id).map Captured.lower).getD .null

/-- A question: with the memory so far it answers or fails, and leaves a memory. -/
abbrev Query := ExceptT Failure (StateM Memory)

namespace Query

/-- The outcome of a question and the memory afterwards. -/
def outcome {α : Type} (q : Query α) (m : Memory) : Except Failure α × Memory := q.run.run m

/-- The second answer if the first one is yes. -/
def both (first second : Query Bool) : Query Bool := do
  if ← first then second else pure false

/-- The second answer unless the first one is yes. -/
def either (first second : Query Bool) : Query Bool := do
  if ← first then pure true else second

/-- Whether the answer is yes for all elements, asked in order up to the first no. -/
def all {α : Type} (ask : α → Query Bool) : List α → Query Bool
  | [] => pure true
  | a :: as => both (ask a) (all ask as)

/-- Whether the answer is yes for some element, asked in order up to the first yes. -/
def any {α : Type} (ask : α → Query Bool) : List α → Query Bool
  | [] => pure false
  | a :: as => either (ask a) (any ask as)

/-- The first element for which the answer is yes. -/
def first? {α : Type} (ask : α → Query Bool) : List α → Query (Option α)
  | [] => pure none
  | a :: as => do if ← ask a then pure (some a) else first? ask as

/-- The failure that a type does not respect its declaration. -/
def malformed {α : Type} (n : Nominal) (detail : String) : Query α :=
  throw (.malformed n.render detail)

/-- The failure that a declaration is applied to a wrong number of arguments. -/
def wrongCount {α : Type} (n : Nominal) (params : Nat) : Query α :=
  malformed n (n.decl ++ " expects " ++ Nat.repr params ++ " type arguments, got "
    ++ Nat.repr n.args.length)

/-- The site for the next type that is built. -/
def nextSite (m : Memory) : Site := ⟨.built (m.built + 1), []⟩

/-- Notes that a type was built. -/
def noteBuilt : Query Unit := modify fun m => { m with built := m.built + 1 }

/-- Replaces variables in a type; nothing if that does not change it, else a type built anew. -/
def replace? (σ : Subst) (t : Ty) : Query (Option Ty) :=
  if σ.entries.isEmpty then pure none
  else do
    match t.subst? σ (nextSite (← get)) with
    | none => pure none
    | some t' => do
      noteBuilt
      pure (some t')

/-- Replaces variables in a type; if that changes it, the result is built anew. -/
def replace (σ : Subst) (t : Ty) : Query Ty := do return (← replace? σ t).getD t

/-- Replaces variables in an applied declaration; if that changes it, the result is built
anew. -/
def replaceIn (σ : Subst) (n : Nominal) : Query Nominal := do
  match n.subst? σ (nextSite (← get)) with
  | none => pure n
  | some n' => do
    noteBuilt
    pure n'

/-- Builds an applied declaration. -/
def build (decl : String) (args : List Arg) : Query Nominal := do
  let site := nextSite (← get)
  noteBuilt
  pure ⟨site, decl, args⟩

end Query

namespace Setting

/-- The upper bound of a variable. -/
def upper (s : Setting) : Var → Query Ty
  | .declared v => pure (s.catalog.upper v)
  | .captured id => do pure ((← get).upper id)

/-- The lower bound of a variable. -/
def lower (_ : Setting) : Var → Query Ty
  | .declared _ => pure .null
  | .captured id => do pure ((← get).lower id)

end Setting

end Generics
