/-
# Commands

Four commands answer questions about the standard catalog and the declarations of a file:

- `check A B`: whether either type is below the other, and whether they are equivalent;
- `infer TARGET DECL`: the declaration with inferred arguments;
- `wf TYPE`: whether the type is well-formed;
- `ancestors DECL`: the ancestors of the declaration as it sees them, one on a line.

A command writes lines and may fail, also after it wrote some of them.
-/

import Generics.Binding.Basic
import Generics.Catalog.Ancestors
import Generics.Catalog.Document
import Generics.Catalog.Standard
import Generics.Command.Folder
import Generics.Command.Line
import Generics.Query.WellFormed
import Generics.Text.Unicode

namespace Generics

namespace Command

open Inference

/-- Commands are run over the tables of Unicode. -/
instance alphabet : Alphabet := .unicode

/-- What a command wrote, and why it ended early. -/
structure Output where
  text : String := ""
  failure? : Option Failure := none

/-- How the contents of files are had. -/
abbrev Files := String → Except FileProblem String

/-- The failure that a file cannot be read. A folder fails only when it is read. -/
def unreadable (path : String) : FileProblem → Failure
  | .isFolder =>
    .within ("loading " ++ path) (.within "decoding universe"
      (.plain ("yaml: input error: read " ++ path ++ ": " ++ FileProblem.isFolder.message)))
  | p => .within "opening universe" (.plain ("open " ++ path ++ ": " ++ p.message))

/-- The standard catalog with the declarations of a file. -/
def loadFile (files : Files) (path : String) : Except Failure Catalog :=
  match files path with
  | .error p => .error (unreadable path p)
  | .ok text =>
    match Catalog.Document.read text with
    | .error p => .error (.within ("loading " ++ path) p.toFailure)
    | .ok defs =>
      match Catalog.standard.declare defs with
      | .error f => .error (.within ("loading " ++ path) f)
      | .ok c => .ok c

/-- The setting that the flags ask for. -/
def setting (files : Files) (flags : Flags) : Except Failure Setting :=
  let options : Options :=
    Options.withSteps { exhaustive := flags.exhaustive } flags.maxSteps
  if flags.file = "" then .ok { catalog := Catalog.standard, options }
  else (loadFile files flags.file).map fun catalog => { catalog, options }

/-- Reads the type that an argument is, the arguments being numbered. -/
def readType (s : Setting) (number : Nat) (text : String) : Query Ty :=
  match Expr.parse (.given number) s.catalog.has [] text with
  | .ok t => pure t
  | .error f => throw f

/-- A truth value in words. -/
def renderBool (b : Bool) : String := if b then "true" else "false"

/-- The answers of `check`. -/
def runCheck (s : Setting) (textA textB : String) : Query String := do
  let a ← readType s 0 textA
  let b ← readType s 1 textB
  let sub ← s.below a b
  let super ← s.below b a
  let equivalent ← s.equivalent a b
  return a.render ++ " <: " ++ b.render ++ ": " ++ renderBool sub ++ "\n"
    ++ b.render ++ " <: " ++ a.render ++ ": " ++ renderBool super ++ "\n"
    ++ "equivalent: " ++ renderBool equivalent ++ "\n"

/-- The answer of `infer`. -/
def runInfer (s : Setting) (textTarget decl : String) : Query String := do
  let target ← readType s 0 textTarget
  if s.catalog.has decl then
    match ← Binding.attempt (Inference.infer s target decl) with
    | .ok i =>
      return i.result.render ++ "\n" ++ (if i.unique then "" else "(other solutions may exist)\n")
    | .error f => throw (.plain ("inference failed: " ++ f.coded))
  else throw (.plain ("unknown declaration " ++ decl))

/-- The answer of `wf`. -/
def runWellFormed (s : Setting) (text : String) : Query String := do
  let t ← readType s 0 text
  match ← Binding.attempt (t.check s) with
  | .ok () => return t.render ++ " is well formed\n"
  | .error f => throw (.plain f.coded)

/-- The lines of `ancestors`, up to the first failure. -/
def ancestorLines (s : Setting) (declared : Nominal) : List String → Query Output
  | [] => pure {}
  | name :: names => do
    match ← Binding.attempt (s.supertypeAs declared name) with
    | .error f => pure { failure? := some f }
    | .ok seen =>
      let line := ((seen.map Nominal.render).getD "<nil>") ++ "\n"
      let more ← ancestorLines s declared names
      pure { more with text := line ++ more.text }

/-- The answer of `ancestors`. -/
def runAncestors (s : Setting) (decl : String) : Query Output :=
  match s.catalog.ancestors decl with
  | .error f => throw f
  | .ok names => do
    let params ← s.params decl
    ancestorLines s (← generic decl params) names

/-- What a command answers, where a failure leaves nothing written. -/
def answer (q : Query String) : Query Output := do return { text := ← q }

/-- The failure that a command is given another number of arguments than it takes. -/
def wrongCount (c : Command) (args : List String) : Failure :=
  .plain ("accepts " ++ Nat.repr c.arity ++ " arg(s), received " ++ Nat.repr args.length)

/-- Runs a command with its arguments. -/
def runWith (s : Setting) (c : Command) (args : List String) : Query Output :=
  match c, args with
  | .check, [a, b] => answer (runCheck s a b)
  | .infer, [target, decl] => answer (runInfer s target decl)
  | .wellFormed, [t] => answer (runWellFormed s t)
  | .ancestors, [decl] => runAncestors s decl
  | _, _ => throw (c.wrongCount args)

/-- Whether a command is given as many arguments as it takes. -/
def checkCount (c : Command) (args : List String) : Except Failure Unit :=
  if args.length = c.arity then .ok () else .error (c.wrongCount args)

/-- How the program is used. -/
def usage : String :=
  "Usage:\n" ++ String.join (all.map fun c => "  " ++ c.name ++ " " ++ c.operands ++ "\n")

/-- Runs a command with its flags and arguments, given the memory to go on from. -/
def runCommand (files : Files) (memory : Memory) (c : Command) (args : List String) :
    Output × Memory :=
  match Flags.read c.flags args with
  | .error f => ({ failure? := some f }, memory)
  | .ok (flags, args) =>
    if flags.help then ({ text := usage }, memory)
    else match (c.checkCount args).bind fun _ => setting files flags with
      | .error f => ({ failure? := some f }, memory)
      | .ok s =>
        match (c.runWith s args).outcome memory with
        | (.ok output, memory) => (output, memory)
        | (.error f, memory) => ({ failure? := some f }, memory)

/-- Runs a command line, given the memory to go on from. A line without a command may have no
flag but the one for help, and gets it. -/
def run (files : Files) (memory : Memory) (line : List String) : Output × Memory :=
  match ofLine? line with
  | some (c, args) => c.runCommand files memory args
  | none =>
    match Flags.read [.help] line with
    | .error f => ({ failure? := some f }, memory)
    | .ok _ => ({ text := usage }, memory)

end Command

end Generics
