/-
# The command line

Reads the file that the flags name, if any, runs the command, and writes what it answers.
-/

import Generics.Command.Run

namespace Generics

/-- The path of the file with further declarations that a command line names. -/
def universePath (line : List String) : String :=
  match Command.ofLine? line with
  | none => ""
  | some (c, args) =>
    match Command.Flags.read c.flags args with
    | .ok (flags, _) => flags.file
    | .error _ => ""

/-- The contents of a file, or why they cannot be had. -/
def contentsOf (path : String) : IO (Except FileProblem String) := do
  try return .ok (← IO.FS.readFile path)
  catch e =>
    match e with
    | .inappropriateType _ _ _ => return .error .isFolder
    | .invalidArgument _ _ _ => return .error .badName
    | _ => return .error .missing

end Generics

open Generics in
/-- Runs one command. -/
def main (line : List String) : IO UInt32 := do
  let path := universePath line
  let file ← if path.isEmpty then pure (.error .missing) else contentsOf path
  let (output, _) := Command.run (fun p => if p = path then file else .error .missing) {} line
  IO.print output.text
  match output.failure? with
  | none => return 0
  | some f =>
    IO.eprintln ("Error: " ++ f.message)
    return 1
