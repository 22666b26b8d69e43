/-
# Ancestors of a declaration

The declarations reached from a declaration by following the supertypes it lists, one or more
times, and the top declaration unless one starts there; without repetitions and in order of
the alphabet.
-/

import Generics.Catalog.Bounds

namespace Generics.Catalog

/-- The names of the supertypes met on a walk from the stacked declarations, in the order met.
Declarations that remain are entered, newest first, and entering one takes it out; one that is
not declared ends the walk. -/
def met (c : Catalog) (remaining : List String) (stack : List String) :
    Except Failure (List String) :=
  match stack.dropWhile fun name => c.has name && !remaining.contains name with
  | [] => .ok []
  | name :: rest =>
    match c.get name with
    | .error f => .error f
    | .ok d =>
      if _h : name ∈ remaining then
        let parents := d.parents.map Nominal.decl
        (c.met (without remaining name) (parents.reverse ++ rest)).map (parents ++ ·)
      else .ok []
termination_by remaining.length
decreasing_by exact without_length_lt _h

/-- An ascending list without its repetitions. -/
def distinct : List String → List String
  | a :: b :: rest => if a = b then distinct (b :: rest) else a :: distinct (b :: rest)
  | short => short

/-- The ancestors of a declaration, given how an ascending list is freed of its repetitions. -/
def ancestors (c : Catalog) (name : String) (unique : List String → List String := distinct) :
    Except Failure (List String) :=
  match c.get name with
  | .error f => .error f
  | .ok _ =>
    (c.met (c.decls.map Declaration.name) [name]).map fun found =>
      unique ((found ++ if name = objectName then [] else [objectName]).mergeSort (· ≤ ·))

end Generics.Catalog
