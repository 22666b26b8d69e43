/-
# Failures

Why a question about types has no answer. A failure is a cause; its wording is in
`Failure.message` alone. Six kinds of causes are told apart by number and name:

| kind | code | cause |
| --- | ---: | --- |
| malformed | 1 | a type does not respect its declaration |
| unsatisfiable | 2 | a constraint cannot hold, with the constraints it was reduced from |
| incomplete | 3 | inference ended with variables unsolved |
| runaway | 4 | inference did not end within its steps |
| lookup | 5 | a declaration could not be read |
| unreadable | 6 | a type expression does not follow the grammar |

A failure without a kind is a plain message. A failure met while doing something larger is
put in its context, which keeps the kind. `exhausted` says that a walk went on past the
depth it was allowed; it stands for a question that has no end.
-/

import Generics.Text.Glyph

namespace Generics

/-- A cause. -/
inductive Failure
  | malformed (type detail : String)
  | unsatisfiable (constraint : String) (chain : List String)
  | incomplete (unsolved : List String)
  | runaway (steps : Int) (pending : List String)
  | lookup (decl : String) (cause : Failure)
  | unreadable (input : Bytes) (offset : Int) (problem : String)
  | plain (text : String)
  | within (context : String) (cause : Failure)
  | exhausted
deriving DecidableEq, Repr

namespace Failure

/-- The kinds of causes. -/
inductive Kind
  | malformed
  | unsatisfiable
  | incomplete
  | runaway
  | lookup
  | unreadable
deriving DecidableEq, Repr

namespace Kind

/-- All kinds, in the order of their codes. -/
def all : List Kind := [.malformed, .unsatisfiable, .incomplete, .runaway, .lookup, .unreadable]

/-- The number of a kind. -/
def code : Kind → Nat
  | .malformed => 1
  | .unsatisfiable => 2
  | .incomplete => 3
  | .runaway => 4
  | .lookup => 5
  | .unreadable => 6

/-- The name of a kind. -/
def name : Kind → String
  | .malformed => "malformed type"
  | .unsatisfiable => "unsatisfiable constraint"
  | .incomplete => "inference incomplete"
  | .runaway => "internal runaway"
  | .lookup => "declaration source failure"
  | .unreadable => "syntax error"

/-- The kind of a number. -/
def ofCode? (n : Int) : Option Kind := all.find? fun k => (k.code : Int) == n

end Kind

/-- The name shown for a kind, or for the lack of one. -/
def kindName (kind : Option Kind) : String := (kind.map Kind.name).getD "unclassified"

/-- The kind of a failure; a context does not change it. -/
def kind? : Failure → Option Kind
  | .malformed _ _ => some .malformed
  | .unsatisfiable _ _ => some .unsatisfiable
  | .incomplete _ => some .incomplete
  | .runaway _ _ => some .runaway
  | .lookup _ _ => some .lookup
  | .unreadable _ _ _ => some .unreadable
  | .plain _ => none
  | .within _ cause => cause.kind?
  | .exhausted => none

/-- The number of a failure's kind, 0 if it has none. -/
def code (f : Failure) : Nat := (f.kind?.map Kind.code).getD 0

/-- Whether a failure only says that no solution was found, as opposed to a malformed question
or a limit that was hit. -/
def isSoft (f : Failure) : Bool :=
  f.kind? == some .unsatisfiable || f.kind? == some .incomplete

/-- The wording of a failure. -/
def message : Failure → String
  | .malformed type detail => "malformed type '" ++ type ++ "': " ++ detail
  | .unsatisfiable constraint chain =>
    "unsatisfiable: " ++ constraint
      ++ String.join (chain.map fun parent => "\n    from    " ++ parent)
  | .incomplete [] => "no solution is found"
  | .incomplete unsolved => "unsolved vars: [" ++ ", ".intercalate unsolved ++ "]"
  | .runaway steps pending =>
    "inference is taking too long, aborted after " ++ Int.repr steps ++ " steps"
      ++ (if pending.isEmpty then "" else "; pending: " ++ "; ".intercalate pending)
  | .lookup decl cause => "declaration source failed for '" ++ decl ++ "': " ++ cause.message
  | .unreadable input offset problem =>
    "at offset " ++ Int.repr offset ++ " of '" ++ input.toText ++ "': " ++ problem
  | .plain text => text
  | .within context cause => context ++ ": " ++ cause.message
  | .exhausted => "nesting is too deep"

/-- The wording with the code of the kind in front, in three digits. -/
def coded (f : Failure) : String :=
  "(E" ++ String.ofList ((Nat.toDigits 10 f.code).leftpad 3 '0') ++ ") " ++ f.message

/-- The entries of a report on several failures: numbered from `e0`, each with its coded
wording. -/
def report (failures : List Failure) : List (String × String) :=
  failures.zipIdx.map fun (f, i) => ("e" ++ Nat.repr i, f.coded)

end Failure

end Generics
