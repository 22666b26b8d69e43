/-
# Lineage of declarations

What a declaration inherits from, and what an applied declaration looks like seen as one of
its ancestors.

A declaration that lists no supertypes inherits from the top declaration, and every
declaration inherits from it in any case. The way up from a declaration to an ancestor goes
through the first of its direct supertypes from which the ancestor can be reached. Seen along
that way, the arguments take the place of the parameters at each step; a raw declaration
stays raw.
-/

import Generics.Catalog.Bounds
import Generics.Query.Basic

namespace Generics.Setting

open Query

/-- Reads what a declaration is from the catalog. -/
def readLineage (s : Setting) (decl : String) : Query Lineage := do
  match s.catalog.find? decl with
  | none =>
    if decl = objectName then pure ⟨decl, [], []⟩
    else throw (.lookup decl (.plain "unknown declaration"))
  | some d =>
    modify fun m => { m with asked := decl :: m.asked }
    match s.catalog.fault? decl .params with
    | some reason => throw (.lookup decl (.within "type parameters" (.plain reason)))
    | none =>
      match s.catalog.fault? decl .parents with
      | some reason => throw (.lookup decl (.within "supertypes" (.plain reason)))
      | none =>
        if d.parents.isEmpty && decl != objectName then pure ⟨decl, d.vars, [Nominal.object]⟩
        else pure ⟨decl, d.vars, d.parents⟩

/-- What a declaration is, read only if it is not yet known. -/
def lineage (s : Setting) (decl : String) : Query Lineage := do
  match (← get).lineage? decl with
  | some l => pure l
  | none => do
    let l ← s.readLineage decl
    modify fun m => { m with known := l :: m.known }
    pure l

/-- The parameters of a declaration. -/
def params (s : Setting) (decl : String) : Query (List TypeVar) := do
  return (← s.lineage decl).params

/-- Whether an applied declaration leaves out the arguments of a generic declaration. -/
def isRaw (s : Setting) (n : Nominal) : Query Bool :=
  if n.args.isEmpty then do return !(← s.params n.decl).isEmpty else pure false

/-- The declarations that a walk can enter. -/
def enterable (s : Setting) : List String := objectName :: s.catalog.decls.map Declaration.name

/-- Whether a walk up from the stacked declarations, newest first, comes to the goal.
Declarations that remain are entered, and entering one takes it out. -/
def walksTo (s : Setting) (goal : String) (remaining stack : List String) : Query Bool :=
  match stack.dropWhile fun d =>
      d != goal && (s.enterable.contains d && !remaining.contains d) with
  | [] => pure false
  | d :: rest =>
    if d = goal then pure true
    else do
      let l ← s.lineage d
      if _h : d ∈ remaining then
        s.walksTo goal (without remaining d) ((l.parents.map Nominal.decl).reverse ++ rest)
      else pure false
termination_by remaining.length
decreasing_by exact without_length_lt _h

/-- Whether the goal is the declaration itself or reached from it. -/
def reaches (s : Setting) (decl goal : String) : Query Bool := s.walksTo goal s.enterable [decl]

/-- Looks for the direct supertype of a declaration that leads to an ancestor. -/
def seek? (s : Setting) (decl ancestor : String) : Query (Option Nominal) := do
  let l ← s.lineage decl
  first? (fun parent => s.reaches parent.decl ancestor) l.parents

/-- The direct supertype of a declaration that leads to an ancestor, looked for only if the way is
not yet known. -/
def leadsTo? (s : Setting) (decl ancestor : String) : Query (Option Nominal) := do
  match (← get).route? decl ancestor with
  | some r => pure r.parent
  | none => do
    let parent ← s.seek? decl ancestor
    modify fun m => { m with routes := ⟨decl, ancestor, parent⟩ :: m.routes }
    pure parent

/-- Whether a declaration is another one or inherits from it. -/
def inherits (s : Setting) (decl ancestor : String) : Query Bool :=
  if decl = ancestor then pure true
  else if ancestor = objectName then do
    let _ ← s.lineage decl
    pure true
  else do return (← s.leadsTo? decl ancestor).isSome

/-- The arguments of an applied declaration as types, which none of them may fail to be. -/
def argTypes (n : Nominal) : List Arg → Query (List Ty)
  | [] => pure []
  | .type t :: as => do return t :: (← argTypes n as)
  | .wild u l :: _ =>
    malformed n ("argument " ++ (Arg.wild u l).render ++ " must be captured first")

/-- The arguments of an applied declaration given to the parameters of its declaration. -/
def assignment (s : Setting) (n : Nominal) : Query Subst := do
  let params ← s.params n.decl
  if n.args.length ≠ params.length then wrongCount n params.length
  else return Subst.zip params (← argTypes n n.args)

/-- Follows the way up to an ancestor for at most so many steps. -/
def climb (s : Setting) (ancestor : String) : Nat → Nominal → Query (Option Nominal)
  | steps, n =>
    if n.decl = ancestor then pure (some n)
    else match steps with
      | 0 => throw .exhausted
      | steps + 1 => do
        match ← s.leadsTo? n.decl ancestor with
        | none => pure none
        | some parent =>
          if n.args.isEmpty then
            if ← s.isRaw n then s.climb ancestor steps (.raw parent.decl)
            else s.climb ancestor steps parent
          else s.climb ancestor steps (← replaceIn (← s.assignment n) parent)

/-- An applied declaration without wildcard arguments, seen as an ancestor of its declaration;
nothing if the declaration does not inherit from it. A way with more steps than there are
declarations comes back to one of them and has no end. -/
def seenAs (s : Setting) (n : Nominal) (ancestor : String) : Query (Option Nominal) :=
  if ancestor = objectName then do
    let _ ← s.lineage n.decl
    pure (some .object)
  else s.climb ancestor (s.catalog.decls.length + 1) n

end Generics.Setting
