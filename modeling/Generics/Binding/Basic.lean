/-
# Bindings

A binding says which type is produced for a query, an applied declaration asked for together
with tags. No values are built here.

- A value of some type answers every query that its type is below.
- An implementation is bound to an applied declaration and answers the queries of that
  declaration. If the arguments are settled when the binding is made, it always produces the
  same type; otherwise its arguments are inferred for each query, and queries for which none
  are found are not answered.

Tags must be the same in order.
-/

import Generics.Inference.Diamond

namespace Generics

/-- What is produced for which queries. -/
inductive Binding
  /-- A value of a type. -/
  | value (type : Nominal) (tags : List String)
  /-- An implementation whose arguments are settled. -/
  | settled (bound produces : Nominal) (tags : List String)
  /-- An implementation whose arguments are inferred for each query. -/
  | inferred (asked impl : String) (tags : List String)
deriving DecidableEq

namespace Binding

open Inference Query

/-- The tags in brackets. -/
def renderTags (tags : List String) : String := "tags=[" ++ ", ".intercalate tags ++ "]"

/-- A binding that always produces the same type, in words. -/
def renderFixed (kind : String) (bound produces : Nominal) (tags : List String) : String :=
  kind ++ "(type=" ++ bound.render ++ ", produces=" ++ produces.render ++ ", "
    ++ renderTags tags ++ ")"

/-- The binding in words. -/
def render : Binding → String
  | .value type tags => renderFixed "instance" type type tags
  | .settled bound produces tags => renderFixed "impl" bound produces tags
  | .inferred asked impl tags =>
    "impl(" ++ asked ++ "<> => " ++ impl ++ "<>, " ++ renderTags tags ++ ")"

/-- The declarations whose queries the binding may answer; nothing stands for all. -/
def applicable : Binding → Option (List String)
  | .value _ _ => none
  | .settled bound _ _ => some [bound.decl]
  | .inferred asked _ _ => some [asked]

/-- The outcome of a question, failures included. -/
def attempt {α : Type} (q : Query α) : Query (Except Failure α) :=
  ExceptT.mk do return .ok (← q.run)

/-- The type if it is below the query. -/
def produceFixed (s : Setting) (bound produces query : Nominal) : Query (Option Nominal) := do
  if ← s.below bound.toTy query.toTy then pure (some produces) else pure none

/-- The type that the binding produces for a query, if it applies. -/
def produce (s : Setting) (b : Binding) (query : Nominal) (tags : List String) :
    Query (Option Nominal) :=
  match b with
  | .value type own => if own = tags then produceFixed s type type query else pure none
  | .settled bound produces own =>
    if query.decl = bound.decl && own = tags then produceFixed s bound produces query
    else pure none
  | .inferred asked impl own =>
    if query.decl = asked && own = tags then do
      match ← attempt (infer s query.toTy impl) with
      | .ok i => pure (some i.result)
      | .error f =>
        if f.isSoft then pure none else throw (.within ("matching " ++ query.render) f)
    else pure none

/-- A binding to a type for which the arguments of the implementation are inferred now. -/
def settle (s : Setting) (bound : Nominal) (impl : String) (tags : List String) :
    Query Binding := do
  match ← attempt (infer s bound.toTy impl) with
  | .ok i => pure (.settled bound i.result tags)
  | .error f => throw (.within ("binding " ++ bound.render ++ " to " ++ impl) f)

/-- Binds an implementation to an applied declaration. With arguments given, or if the
implementation settles them itself, its own arguments are inferred now; otherwise they are
inferred for each query. -/
def implement (s : Setting) (type : Nominal) (impl : String) (tags : List String) :
    Query Binding := do
  let params ← s.params impl
  let declared ← generic impl params
  match ← s.supertypeAs declared type.decl with
  | none => throw (.plain (impl ++ " is not a subtype of " ++ type.decl))
  | some seen =>
    if !type.args.isEmpty then settle s type impl tags
    else if seen.args.isEmpty || params.isEmpty then settle s seen impl tags
    else pure (.inferred type.decl impl tags)

end Binding

end Generics
