/-
# What registering leaves behind

Definitions are declared step by step on a catalog (`Registering.declare`), and nothing takes back what the
steps before a failure did. But a check leaves the catalog as it is, all checks come before the first entry,
and an entry does not fail. So the steps amount to checking all names of the catalog as it was, reading all
texts against it, and adding what was read at its end (`Registering.declare_eq`). A list of definitions that
is refused leaves the catalog as it was, and one that is accepted leaves the catalog that `Catalog.declare`
answers (`Registering.state_declare`).
-/

import Generics.Catalog.Declare
import Mathlib.Tactic.Common

namespace Generics

/-- Checks the names of some definitions, given those that were accepted before. -/
def Catalog.checkNames (c : Catalog) (accepted : List String) : List Definition → Except Failure Unit
  | [] => .ok ()
  | d :: ds =>
    match c.checkName accepted d with
    | .error f => .error f
    | .ok () => c.checkNames (d.name :: accepted) ds

/-- Reads some definitions in order, given the names that are declarations. -/
def Definition.readAll [Alphabet] (known : String → Bool) :
    List Definition → Except Failure (List Declaration)
  | [] => .ok []
  | d :: ds =>
    match d.read known with
    | .error f => .error f
    | .ok decl => (readAll known ds).map (decl :: ·)

namespace Registering

variable {α β : Type} {c c' : Catalog}

/-- A step that succeeds goes on where it ended. -/
theorem bind_ok {x : Registering α} {f : α → Registering β} {a : α} (h : x c = (.ok a, c')) :
    (x >>= f) c = f a c' := by
  change ExceptT.bindCont f (x c).1 (x c).2 = _
  rw [h]
  rfl

/-- A step that fails ends all, and what was changed stays. -/
theorem bind_error {x : Registering α} {f : α → Registering β} {e : Failure} (h : x c = (.error e, c')) :
    (x >>= f) c = (.error e, c') := by
  change ExceptT.bindCont f (x c).1 (x c).2 = _
  rw [h]
  rfl

/-- **Checking names changes nothing.** -/
theorem names_eq (accepted : List String) (ds : List Definition) :
    names accepted ds c = (c.checkNames accepted ds, c) := by
  induction ds generalizing accepted with
  | nil => rfl
  | cons d ds ih =>
    rw [names, Catalog.checkNames]
    cases hname : c.checkName accepted d with
    | error f => exact bind_error (by rw [check, hname])
    | ok u => exact (bind_ok (by rw [check, hname])).trans (ih _)

/-- **Entering does not fail**, and adds the declarations behind those there are. -/
theorem entries_eq (decls : List Declaration) :
    entries decls c = (.ok (), { c with decls := c.decls ++ decls }) := by
  induction decls generalizing c with
  | nil => rw [List.append_nil]; rfl
  | cons d ds ih =>
    rw [entries]
    have henter : (modify fun c => c.enter d : Registering Unit) c = (.ok (), c.enter d) := rfl
    refine (bind_ok henter).trans (ih.trans ?_)
    rw [Catalog.enter, List.append_assoc, List.singleton_append]

variable [Alphabet]

/-- **Reading texts changes nothing.** -/
theorem texts_eq (defs ds : List Definition) :
    texts defs ds c = (Definition.readAll (c.knows defs) ds, c) := by
  induction ds with
  | nil => rfl
  | cons d ds ih =>
    rw [texts, Definition.readAll]
    cases hread : d.read (c.knows defs) with
    | error f => exact bind_error (by rw [check, hread])
    | ok decl =>
      refine (bind_ok (by rw [check, hread])).trans ?_
      cases hrest : Definition.readAll (c.knows defs) ds with
      | error f => exact bind_error (by rw [ih, hrest])
      | ok decls => exact bind_ok (by rw [ih, hrest])

/-- **Registering is checking first and entering afterwards.** -/
theorem declare_eq (defs : List Definition) : Registering.declare defs c =
    match c.checkNames [] defs with
    | .error f => (.error f, c)
    | .ok () =>
      match Definition.readAll (c.knows defs) defs with
      | .error f => (.error f, c)
      | .ok decls => (.ok (), { c with decls := c.decls ++ decls }) := by
  rw [Registering.declare]
  cases hnames : c.checkNames [] defs with
  | error f => exact bind_error (by rw [names_eq, hnames])
  | ok u =>
    refine (bind_ok (by rw [names_eq, hnames])).trans ?_
    cases hread : Definition.readAll (c.knows defs) defs with
    | error f => exact bind_error (by rw [texts_eq, hread])
    | ok decls => exact (bind_ok (by rw [texts_eq, hread])).trans (entries_eq decls)

end Registering

variable [Alphabet]

/-- What declaring answers, without the steps. -/
theorem Catalog.declare_def (c : Catalog) (defs : List Definition) : c.declare defs =
    match c.checkNames [] defs with
    | .error f => .error f
    | .ok () =>
      (Definition.readAll (c.knows defs) defs).map fun decls => { c with decls := c.decls ++ decls } := by
  rw [Catalog.declare, Registering.declare_eq]
  cases c.checkNames [] defs with
  | error f => rfl
  | ok u => cases Definition.readAll (c.knows defs) defs <;> rfl

/-- **The catalog after registering** is what declaring answers, and what it was if that is a failure. -/
theorem Registering.state_declare (c : Catalog) (defs : List Definition) :
    (Registering.declare defs c).2 = (c.declare defs).toOption.getD c := by
  rw [Catalog.declare, Registering.declare_eq]
  cases c.checkNames [] defs with
  | error f => rfl
  | ok u => cases Definition.readAll (c.knows defs) defs <;> rfl

end Generics
