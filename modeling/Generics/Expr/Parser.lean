/-
# Reading type expressions

    type := elem ('&' elem)*
    elem := ('Null' | primitive | name ['<' arg (',' arg)* '>'] | '(' type ')') ('[' ']')*
    arg  := '?' ['extends' type] ['super' type] | type
    name := ident ('.' ident)*

A name is `Null`, else a primitive, else a variable in scope (the last one of that name,
and without arguments), else a declaration. `Object` is always a declaration; other names
are asked for.

Each rule is a function on the tokens still to be read, and answers what it read and the
tokens after it. The rules call each other, so each takes a depth that its calls lower by one;
`enough` is a depth that no expression of the given number of tokens reaches.
-/

import Generics.Expr.Token
import Generics.Failure
import Generics.Type.Printer

namespace Generics.Expr

variable [Alphabet]

/-- What names mean while an expression is read, and how problems in it are reported. -/
structure Reading where
  /-- The bytes, for reports. -/
  input : Bytes
  /-- The place that the types read are written at. -/
  place : Place
  /-- Whether a name is a declaration. -/
  known : String → Bool
  /-- The variables in scope; of two with one name the last counts. -/
  scope : List TypeVar

/-- A rule: reads from the tokens and leaves the rest. -/
abbrev Rule := StateT (List Token) (Except Failure)

namespace Reading

/-- The token at the end of the input. -/
def atEnd (r : Reading) : Token := ⟨.finish, r.input.length, []⟩

/-- The next token, which stays. -/
def peek (r : Reading) : Rule Token := fun ts => .ok (ts.headD r.atEnd, ts)

/-- The next token, which is taken; the end stays. -/
def take (r : Reading) : Rule Token := fun ts => .ok (ts.headD r.atEnd, ts.tail)

/-- A problem at a token. -/
def problem {α : Type} (r : Reading) (t : Token) (text : String) : Rule α :=
  throw (.unreadable r.input t.offset text)

/-- Takes a token of the given kind. -/
def expect (r : Reading) (kind : Kind) : Rule Token := do
  let t ← r.take
  if t.kind = kind then return t
  else r.problem t ("expected " ++ kind.name ++ ", found " ++ t.describe)

/-- The variable in scope of a name. -/
def scoped? (r : Reading) (name : String) : Option TypeVar :=
  r.scope.reverse.find? fun v => v.name == name

/-- The site of what starts at a token. -/
def site (r : Reading) (t : Token) : Site := ⟨r.place, [t.offset]⟩

/-- The further parts of a dotted name. -/
def nameParts (r : Reading) : Nat → Rule (List String)
  | 0 => throw .exhausted
  | n + 1 => do
    if (← r.peek).kind = .period then
      let _ ← r.take
      let part ← r.expect .ident
      return part.data :: (← r.nameParts n)
    else return []

/-- A dotted name. -/
def name (r : Reading) (n : Nat) : Rule String := do
  let first ← r.expect .ident
  return ".".intercalate (first.data :: (← r.nameParts n))

/-- The pairs of brackets after a type, each making it an array. -/
def brackets (r : Reading) (t : Ty) : Nat → Rule Ty
  | 0 => throw .exhausted
  | n + 1 => do
    if (← r.peek).kind = .leftBracket then
      let _ ← r.take
      let _ ← r.expect .rightBracket
      r.brackets (.array t) n
    else return t

mutual
/-- A type. -/
def type (r : Reading) : Nat → Rule Ty
  | 0 => throw .exhausted
  | n + 1 => do
    let start ← r.peek
    let first ← r.elem n
    match ← r.members n with
    | [] => return first
    | more => return .meet (r.site start) (first :: more)

/-- The further members of an intersection. -/
def members (r : Reading) : Nat → Rule (List Ty)
  | 0 => throw .exhausted
  | n + 1 => do
    if (← r.peek).kind = .and then
      let _ ← r.take
      let next ← r.elem n
      return next :: (← r.members n)
    else return []

/-- A member of an intersection. -/
def elem (r : Reading) : Nat → Rule Ty
  | 0 => throw .exhausted
  | n + 1 => do
    let start ← r.peek
    match start.kind with
    | .leftParen =>
      let _ ← r.take
      let t ← r.type n
      let _ ← r.expect .rightParen
      r.brackets t n
    | .ident =>
      let t ← r.named n
      r.brackets t n
    | _ => r.problem start ("expected a type, found " ++ start.describe)

/-- What a name stands for, with its arguments. -/
def named (r : Reading) : Nat → Rule Ty
  | 0 => throw .exhausted
  | n + 1 => do
    let start ← r.peek
    let name ← r.name n
    let after ← r.peek
    if name == "Null" then return .null
    else if let some p := Primitive.named? name then return .prim p
    else if let some v := r.scoped? name then
      if after.kind = .less then
        r.problem after ("type variable " ++ name ++ " cannot have type arguments")
      else return .var (.declared v)
    else if name != objectName && !r.known name then
      r.problem start ("unknown type " ++ name)
    else if after.kind = .less then
      let _ ← r.take
      let first ← r.arg n
      let more ← r.args n
      let _ ← r.expect .greater
      return .nominal (r.site start) name (first :: more)
    else if name == objectName then return .object
    else return .nominal (r.site start) name []

/-- The further arguments of a declaration. -/
def args (r : Reading) : Nat → Rule (List Arg)
  | 0 => throw .exhausted
  | n + 1 => do
    if (← r.peek).kind = .comma then
      let _ ← r.take
      let next ← r.arg n
      return next :: (← r.args n)
    else return []

/-- An argument of a declaration. -/
def arg (r : Reading) : Nat → Rule Arg
  | 0 => throw .exhausted
  | n + 1 => do
    if (← r.peek).kind = .question then
      let _ ← r.take
      let upper ← r.wildBound n "extends" .object
      let lower ← r.wildBound n "super" .null
      return .wild upper lower
    else return .type (← r.type n)

/-- A bound of a wildcard after its word, or the default without the word. -/
def wildBound (r : Reading) (n : Nat) (word : String) (default : Ty) : Rule Ty :=
  match n with
  | 0 => throw .exhausted
  | n + 1 => do
    if (← r.peek).isWord word then
      let _ ← r.take
      r.type n
    else return default
end

end Reading

/-- A depth that no expression of so many tokens reaches. -/
def enough (tokens : Nat) : Nat := 8 * (tokens + 1)

/-- Reads a type that makes up all of the bytes. -/
def parse (place : Place) (known : String → Bool) (scope : List TypeVar) (input : Bytes) :
    Except Failure Ty :=
  let r : Reading := ⟨input, place, known, scope⟩
  let tokens := (Token.scan input).dropLast
  match r.type (enough tokens.length) tokens with
  | .error f => .error f
  | .ok (t, []) => .ok t
  | .ok (_, next :: _) =>
    .error (.unreadable input next.offset ("unexpected " ++ next.describe ++ " after type"))

/-- Reads an applied declaration that makes up all of the bytes. -/
def parseNominal (place : Place) (known : String → Bool) (scope : List TypeVar)
    (input : Bytes) : Except Failure Nominal :=
  match parse place known scope input with
  | .error f => .error f
  | .ok t =>
    match t.nominal? with
    | some n => .ok n
    | none => .error (.unreadable input 0 (t.render ++ " is not a declared type"))

end Generics.Expr
