/-
# Index of bindings

Bindings in the order in which they were added, with the bindings that may apply to each
declaration kept at hand. A binding applies to the declarations it lists, or to all of them.
An index is a value: adding to it leaves the index before as it was.
-/

namespace Generics.Binding

/-- Bindings in order, indexed by the declarations they apply to. -/
structure Index (β : Type) where
  /-- All bindings, oldest first. -/
  all : List β := []
  /-- For the declarations that some binding listed: the bindings that apply, oldest first. -/
  byDecl : List (String × List β) := []
  /-- The bindings that apply to every declaration, oldest first. -/
  wild : List β := []
deriving DecidableEq

namespace Index

variable {β : Type}

/-- The bindings that may apply to a declaration, oldest first. -/
def applicableTo (ix : Index β) (decl : String) : List β := (ix.byDecl.lookup decl).getD ix.wild

/-- The table with the entry of a declaration replaced, or added at the end. -/
def setEntry (decl : String) (bindings : List β) :
    List (String × List β) → List (String × List β)
  | [] => [(decl, bindings)]
  | entry :: rest =>
    if entry.1 = decl then (decl, bindings) :: rest else entry :: setEntry decl bindings rest

/-- Adds a binding for one declaration; those that apply to every declaration come before it. -/
def addFor (b : β) (ix : Index β) (decl : String) : Index β :=
  { ix with byDecl := setEntry decl (ix.applicableTo decl ++ [b]) ix.byDecl }

/-- Adds a binding for the declarations it lists, or for all of them. -/
def add (ix : Index β) (b : β) (decls : Option (List String)) : Index β :=
  let ix := { ix with all := ix.all ++ [b] }
  match decls with
  | none =>
    { ix with
      wild := ix.wild ++ [b]
      byDecl := ix.byDecl.map fun entry => (entry.1, entry.2 ++ [b]) }
  | some decls => decls.foldl (addFor b) ix

/-- Number of bindings. -/
def size (ix : Index β) : Nat := ix.all.length

end Index

end Generics.Binding
