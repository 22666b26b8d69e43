/-
# Command lines

The name of the command is the first argument that is no flag. Which flags there are is not
known before it, so any flag without an equals sign, if it is a long one or a single letter, is
taken to be followed by its value. The name is taken out of the line, and the command gets
everything else.
-/

import Generics.Command.Flags

namespace Generics

/-- The commands. -/
inductive Command
  | check
  | infer
  | wellFormed
  | ancestors
deriving DecidableEq, Repr

namespace Command

/-- All commands. -/
def all : List Command := [.ancestors, .check, .infer, .wellFormed]

/-- The name of a command. -/
def name : Command → String
  | .check => "check"
  | .infer => "infer"
  | .wellFormed => "wf"
  | .ancestors => "ancestors"

/-- The arguments of a command in words. -/
def operands : Command → String
  | .check => "A B"
  | .infer => "TARGET DECL"
  | .wellFormed => "TYPE"
  | .ancestors => "DECL"

/-- How many arguments a command takes. -/
def arity : Command → Nat
  | .check => 2
  | .infer => 2
  | .wellFormed => 1
  | .ancestors => 1

/-- The flags of a command. -/
def flags : Command → List Flag
  | .infer => [.file, .logLevel, .maxSteps, .exhaustive, .debugErrors, .dump, .help]
  | _ => [.file, .logLevel, .maxSteps, .exhaustive, .debugErrors, .help]

/-- The command of a name. -/
def named? (name : String) : Option Command := all.find? fun c => c.name == name

/-- Whether an argument before the command's name is a flag followed by its value. -/
def takesValue (arg : String) : Bool :=
  arg.startsWith "-" && (arg.startsWith "--" || arg.utf8ByteSize == 2)
    && !arg.toList.contains '='

/-- The first argument that is no flag, unless a flag that may take a value is the last but one
before it. -/
def firstWord? : List String → Option String
  | [] => none
  | arg :: args =>
    if arg = "--" then none
    else if takesValue arg then
      match args with
      | _ :: next :: more => firstWord? (next :: more)
      | _ => none
    else if arg ≠ "" && !arg.startsWith "-" then some arg
    else firstWord? args

/-- The arguments without the first one that is a given word and no value of a flag. -/
def without (word : String) : List String → List String
  | [] => []
  | arg :: args =>
    if arg = "--" then arg :: args
    else if takesValue arg then
      match args with
      | value :: more => arg :: value :: without word more
      | [] => [arg]
    else if arg = word && !arg.startsWith "-" then args
    else arg :: without word args

/-- The command of a line with its arguments, flags included. -/
def ofLine? (line : List String) : Option (Command × List String) := do
  let word ← firstWord? line
  let c ← named? word
  return (c, without word line)

end Command

end Generics
