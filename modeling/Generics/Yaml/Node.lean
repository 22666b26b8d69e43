/-
# YAML documents

The tree that a YAML document stands for. Every node knows the line it starts on, counted
from 1, and its tag. A node with an anchor may be repeated by aliases elsewhere, also inside
itself; so the nodes with anchors are kept beside the tree, and an alias has the number of one.
-/

import Generics.Yaml.Tag

namespace Generics.Yaml

mutual
/-- A node of a document. -/
inductive Node
  | scalar (line : Nat) (tag text : String)
  | seq (line : Nat) (tag : String) (items : List Node)
  | map (line : Nat) (tag : String) (entries : List Entry)
  /-- The repetition of a node by its anchor's name. The aliases of a document are numbered. -/
  | alias (line : Nat) (name : String) (number target : Nat)

/-- A key with its value. -/
inductive Entry
  | mk (key value : Node)
end

instance : Inhabited Node := ⟨.scalar 0 "!!null" ""⟩

/-- The line a node starts on. -/
def Node.line : Node → Nat
  | .scalar line _ _ => line
  | .seq line _ _ => line
  | .map line _ _ => line
  | .alias line _ _ _ => line

/-- The tag of a node. -/
def Node.tag : Node → String
  | .scalar _ tag _ => tag
  | .seq _ tag _ => tag
  | .map _ tag _ => tag
  | .alias _ _ _ _ => ""

/-- The key of an entry. -/
def Entry.key : Entry → Node
  | .mk key _ => key

/-- The value of an entry. -/
def Entry.value : Entry → Node
  | .mk _ value => value

/-- The node of what is left out. -/
def Node.absent (line : Nat) : Node := .scalar line "!!null" ""

/-- Whether a node is the key under which other mappings are merged. -/
def Node.isMerge : Node → Bool
  | .scalar _ tag text => text == "<<" && tag == "!!merge"
  | _ => false

/-- A document. -/
structure Document where
  root : Node
  /-- The nodes with anchors. -/
  anchored : Array Node := #[]
  /-- A number above the nodes on a way down that passes no alias twice. -/
  size : Nat

end Generics.Yaml
