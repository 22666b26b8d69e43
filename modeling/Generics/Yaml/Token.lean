/-
# Tokens of YAML texts

The pieces that a text is cut into before nodes are made of them. Blocks have no brackets in the
text, so tokens for their starts and ends are put in where the indentation changes; a key that
is followed by a colon gets a token in front of it as well.
-/

namespace Generics.Yaml

/-- What a token is. -/
inductive Lexeme
  | version (major minor : Nat)
  | tagHandle (handle expansion : String)
  | documentStart
  | documentEnd
  | streamEnd
  | blockSequenceStart
  | blockMappingStart
  | blockEnd
  | flowSequenceStart
  | flowSequenceEnd
  | flowMappingStart
  | flowMappingEnd
  | blockEntry
  | flowEntry
  | key
  | value
  | alias (name : String)
  | anchor (name : String)
  | tag (handle suffix : String)
  | scalar (isPlain : Bool) (text : String)
deriving DecidableEq, Repr

/-- A token with the line it starts on. -/
structure Token where
  lexeme : Lexeme
  line : Nat
deriving DecidableEq, Repr

end Generics.Yaml
