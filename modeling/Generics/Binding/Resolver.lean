/-
# Resolving queries

A resolver finds the binding for a query, an applied declaration with tags: of the bindings
that match it, the one added last. What was found is remembered until a binding is added that
applies to the same declaration. Queries are remembered by equality of types and by their
tags, written one after the other with a zero character between them.

The kind of bindings, and how a binding is matched with a query, are left open: a match may
ask questions, fail, or keep count, all of it in the monad `m`.
-/

import Generics.Binding.Index
import Generics.Type.Identity
import Generics.Type.Shape

namespace Generics.Binding

/-- A binding that matched, with the type that it produces. -/
structure Match (β : Type) where
  binding : β
  type : Nominal
deriving DecidableEq

/-- What was found for a query. -/
structure Remembered (β : Type) where
  query : Nominal
  tags : String
  found : Match β

/-- Bindings, and what was found with them. -/
structure Resolver (β : Type) where
  index : Index β := {}
  cache : List (Remembered β) := []

namespace Resolver

variable {β : Type}

/-- The tags as they are remembered. -/
def tagKey (tags : List String) : String := (String.singleton (Char.ofNat 0)).intercalate tags

/-- What was found for a query before. -/
def remembered? (r : Resolver β) (query : Nominal) (tags : List String) : Option (Match β) :=
  (r.cache.find? fun e => e.tags == tagKey tags && e.query.equal query).map Remembered.found

/-- What stays remembered when a binding for the given declarations is added. -/
def keep (cache : List (Remembered β)) : Option (List String) → List (Remembered β)
  | none => []
  | some decls => cache.filter fun e => !decls.contains e.query.decl

/-- Adds a binding for the declarations it lists, or for all of them. -/
def add (r : Resolver β) (b : β) (decls : Option (List String)) : Resolver β :=
  { index := r.index.add b decls, cache := keep r.cache decls }

/-- How bindings are matched: the type a binding produces for a query, if it applies. -/
abbrev Matcher (m : Type → Type) (β : Type) := β → Nominal → List String → m (Option Nominal)

/-- The first match among some bindings. -/
def firstMatch {m : Type → Type} [Monad m] (produce : Matcher m β) (query : Nominal)
    (tags : List String) : List β → m (Option (Match β))
  | [] => pure none
  | b :: bs => do
    match ← produce b query tags with
    | some type => pure (some ⟨b, type⟩)
    | none => firstMatch produce query tags bs

/-- All matches among some bindings. -/
def allMatches {m : Type → Type} [Monad m] (produce : Matcher m β) (query : Nominal)
    (tags : List String) : List β → m (List (Match β))
  | [] => pure []
  | b :: bs => do
    let found ← produce b query tags
    let more ← allMatches produce query tags bs
    pure ((found.map (Match.mk b)).toList ++ more)

/-- The match of the binding added last among those that match, and the resolver that
remembers it. -/
def resolve {m : Type → Type} [Monad m] (produce : Matcher m β) (r : Resolver β)
    (query : Nominal) (tags : List String) : m (Option (Match β) × Resolver β) := do
  match r.remembered? query tags with
  | some found => pure (some found, r)
  | none =>
    match ← firstMatch produce query tags (r.index.applicableTo query.decl).reverse with
    | some found =>
      pure (some found, { r with cache := ⟨query, tagKey tags, found⟩ :: r.cache })
    | none => pure (none, r)

/-- The matches of all bindings that match, oldest first. -/
def resolveAll {m : Type → Type} [Monad m] (produce : Matcher m β) (r : Resolver β)
    (query : Nominal) (tags : List String) : m (List (Match β)) :=
  allMatches produce query tags (r.index.applicableTo query.decl)

end Resolver

end Generics.Binding
