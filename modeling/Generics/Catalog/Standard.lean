/-
# The standard catalog

A small library of declarations that most catalogs start from: the top declaration, the
supertypes of arrays, comparable and numeric classes, texts, and the usual collections.
-/

import Generics.Catalog.Declare

namespace Generics.Catalog

/-- The definitions of the standard catalog. -/
def standardDefinitions : List Definition :=
  [ { name := "Object" },
    { name := "Cloneable" },
    { name := "Serializable" },
    { name := "Comparable", params := [{ name := "T" }] },
    { name := "CharSequence" },
    { name := "Number", parents := ["Serializable"] },
    { name := "Integer", parents := ["Number", "Comparable<Integer>"] },
    { name := "Long", parents := ["Number", "Comparable<Long>"] },
    { name := "Double", parents := ["Number", "Comparable<Double>"] },
    { name := "String", parents := ["Serializable", "CharSequence", "Comparable<String>"] },
    { name := "Iterable", params := [{ name := "T" }] },
    { name := "Collection", params := [{ name := "E" }], parents := ["Iterable<E>"] },
    { name := "List", params := [{ name := "E" }], parents := ["Collection<E>"] },
    { name := "ArrayList", params := [{ name := "E" }],
      parents := ["List<E>", "Cloneable", "Serializable"] },
    { name := "Set", params := [{ name := "E" }], parents := ["Collection<E>"] },
    { name := "HashSet", params := [{ name := "E" }],
      parents := ["Set<E>", "Cloneable", "Serializable"] },
    { name := "Map", params := [{ name := "K" }, { name := "V" }] },
    { name := "HashMap", params := [{ name := "K" }, { name := "V" }],
      parents := ["Map<K, V>", "Cloneable", "Serializable"] } ]

/-- The standard catalog. Its definitions are written in ASCII. -/
def standard : Catalog :=
  letI := Alphabet.ascii
  (({} : Catalog).declare standardDefinitions).toOption.getD {}

end Generics.Catalog
