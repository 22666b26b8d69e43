/-
# Capture of wildcards

A wildcard stands for one unknown type. Capturing an applied declaration gives each wildcard
argument a variable of its own, with the bounds of the wildcard: the lower one as it is, the
upper one together with the bound that the declaration puts on that parameter, in which the
captured variables already take the place of the parameters. Without wildcards nothing
happens.
-/

import Generics.Query.Lineage

namespace Generics.Setting

open Query

/-- The arguments with captured variables for the wildcards, numbered after the given number. -/
def captureArgs : Nat → List Arg → List Arg
  | _, [] => []
  | last, .wild _ _ :: as => .type (.var (.captured (last + 1))) :: captureArgs (last + 1) as
  | last, .type t :: as => .type t :: captureArgs last as

/-- The captured variables for the wildcards among the arguments of the given parameters,
numbered after the given number. -/
def captureBounds (s : Setting) (σ : Subst) :
    Nat → List TypeVar → List Arg → Query (List Captured)
  | last, p :: ps, .wild upper lower :: as => do
    let bound ← replace σ (s.catalog.upper p)
    return ⟨last + 1, Ty.meetBounds ⟨.capture (last + 1), []⟩ upper bound, lower⟩ ::
      (← s.captureBounds σ (last + 1) ps as)
  | last, _ :: ps, .type _ :: as => s.captureBounds σ last ps as
  | _, _, _ => pure []

/-- Captures the wildcards of an applied declaration. -/
def capture (s : Setting) (n : Nominal) : Query Nominal :=
  if n.hasWild then do
    let params ← s.params n.decl
    if params.length ≠ n.args.length then wrongCount n params.length
    else do
      let last := (← get).lastCaptured
      let args := captureArgs last n.args
      modify fun m => { m with lastCaptured := last + n.args.countP Arg.isWild }
      let captured ← s.captureBounds (Subst.zip params (args.filterMap Arg.type?)) last params n.args
      modify fun m => { m with captured := captured.reverse ++ m.captured }
      pure { n with args }
  else pure n

/-- An applied declaration, wildcards captured, seen as an ancestor of its declaration. -/
def supertypeAs (s : Setting) (n : Nominal) (ancestor : String) : Query (Option Nominal) := do
  s.seenAs (← s.capture n) ancestor

end Generics.Setting
