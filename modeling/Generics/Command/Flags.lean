/-
# Flags of the commands

The commands take flags anywhere among their arguments:

| flag | value |
| --- | --- |
| `-u`, `--universe` | file with further declarations |
| `-l`, `--log-level` | least level of the records that are logged |
| `--max-steps` | most reductions of an inference |
| `--exhaustive` | look at every branch of an inference |
| `--debug-errors` | accepted; failures say the same with and without it |
| `--dump` | accepted by `infer`; the answer is the same with and without it |
| `-h`, `--help` | only say how the program is used |

A long flag takes its value after an equals sign or as the next argument, a short one right
behind it, after an equals sign, or as the next argument. A switch is on unless it is said
otherwise after an equals sign, and the letters of further flags may stand right behind that of
a short one. Two dashes alone end the flags. A group of letters that starts with `test.` is
passed over.
-/

import Generics.Failure
import Generics.Text.Numeral
import Generics.Text.Quoted

namespace Generics.Command

/-- The values of the flags. -/
structure Flags where
  file : String := ""
  logLevel : Int := 4
  maxSteps : Int := 10000
  exhaustive : Bool := false
  debugErrors : Bool := false
  dump : Bool := false
  help : Bool := false
deriving DecidableEq, Repr

/-- The flags that there are. -/
inductive Flag
  | file
  | logLevel
  | maxSteps
  | exhaustive
  | debugErrors
  | dump
  | help
deriving DecidableEq, Repr

namespace Flag

/-- The name of a flag. -/
def name : Flag → String
  | .file => "universe"
  | .logLevel => "log-level"
  | .maxSteps => "max-steps"
  | .exhaustive => "exhaustive"
  | .debugErrors => "debug-errors"
  | .dump => "dump"
  | .help => "help"

/-- The letter of a flag that has one. -/
def letter? : Flag → Option Char
  | .file => some 'u'
  | .logLevel => some 'l'
  | .help => some 'h'
  | _ => none

/-- The flag in words. -/
def render (f : Flag) : String :=
  match f.letter? with
  | some c => "-" ++ String.singleton c ++ ", --" ++ f.name
  | none => "--" ++ f.name

/-- The value of a flag that is given without one. -/
def implied? : Flag → Option String
  | .file | .logLevel | .maxSteps => none
  | .exhaustive | .debugErrors | .dump | .help => some "true"

end Flag

/-- The truth value that a text stands for. -/
def boolValue? (text : String) : Option Bool :=
  if text ∈ ["1", "t", "T", "true", "TRUE", "True"] then some true
  else if text ∈ ["0", "f", "F", "false", "FALSE", "False"] then some false
  else none

variable [Alphabet]

/-- The failure that a flag cannot have a value. -/
def badValue (f : Flag) (text reader problem : String) : Failure :=
  .plain ("invalid argument " ++ Text.quoted text ++ " for " ++ Text.quoted f.render ++ " flag: "
    ++ reader ++ ": parsing " ++ Text.quoted text ++ ": " ++ problem)

/-- The number that a flag is given. -/
def numberFor (f : Flag) (text : String) : Except Failure Int :=
  match Text.Numeral.signed text.toList with
  | .ok n => .ok n
  | .error .syntactic => .error (badValue f text "strconv.ParseInt" "invalid syntax")
  | .error .outOfRange => .error (badValue f text "strconv.ParseInt" "value out of range")

/-- The truth value that a switch is given. -/
def boolFor (f : Flag) (text : String) : Except Failure Bool :=
  match boolValue? text with
  | some b => .ok b
  | none => .error (badValue f text "strconv.ParseBool" "invalid syntax")

/-- Sets a flag. -/
def Flags.set (flags : Flags) (f : Flag) (text : String) : Except Failure Flags :=
  match f with
  | .file => .ok { flags with file := text }
  | .logLevel => (numberFor f text).map fun n => { flags with logLevel := n }
  | .maxSteps => (numberFor f text).map fun n => { flags with maxSteps := n }
  | .exhaustive => (boolFor f text).map fun b => { flags with exhaustive := b }
  | .debugErrors => (boolFor f text).map fun b => { flags with debugErrors := b }
  | .dump => (boolFor f text).map fun b => { flags with dump := b }
  | .help => (boolFor f text).map fun b => { flags with help := b }

/-- Sets a flag that takes its value from the next argument; answers the flags and the arguments
left. The spelling is how the flag was written. -/
def takeNext (flags : Flags) (f : Flag) (spelling : String) :
    List String → Except Failure (Flags × List String)
  | value :: args => (flags.set f value).map (·, args)
  | [] => .error (.plain ("flag needs an argument: " ++ spelling))

/-- Sets the long flag of an argument, given without its two dashes. -/
def takeLong (known : List Flag) (flags : Flags) (text : String) (args : List String) :
    Except Failure (Flags × List String) :=
  let name := String.ofList (text.toList.takeWhile (· != '='))
  if name.isEmpty || name.startsWith "-" then .error (.plain ("bad flag syntax: --" ++ text))
  else match known.find? fun f => f.name == name with
    | none => .error (.plain ("unknown flag: --" ++ name))
    | some f =>
      match text.toList.dropWhile (· != '='), f.implied? with
      | _ :: value, _ => (flags.set f (String.ofList value)).map (·, args)
      | [], some value => (flags.set f value).map (·, args)
      | [], none => takeNext flags f ("--" ++ text) args

/-- The letter of a short flag as it is reported: the first byte of it. -/
def shownLetter (c : Char) : String :=
  Text.quotedChar (Char.ofNat (((String.utf8EncodeChar c).head?.map UInt8.toNat).getD 0))

/-- Whether letters belong to a group that is passed over. -/
def isPassedOver (letters : List Char) : Bool := "test.".toList.isPrefixOf letters

/-- Sets the short flags of an argument, given without its dash. An equals sign before a value
does not belong to the value. -/
def takeShort (known : List Flag) (flags : Flags) :
    List Char → List String → Except Failure (Flags × List String)
  | [], args => .ok (flags, args)
  | c :: rest, args =>
    let spelling := shownLetter c ++ " in -" ++ String.ofList (c :: rest)
    if isPassedOver (c :: rest) then .ok (flags, args)
    else match known.find? fun f => f.letter? == some c with
      | none => .error (.plain ("unknown shorthand flag: " ++ spelling))
      | some f =>
        match rest, f.implied? with
        | '=' :: v :: value, _ => (flags.set f (String.ofList (v :: value))).map (·, args)
        | rest, some value =>
          match flags.set f value with
          | .ok flags => takeShort known flags rest args
          | .error failure => .error failure
        | [], none => takeNext flags f spelling args
        | value, none => (flags.set f (String.ofList value)).map (·, args)

/-- The flags among some arguments, and the arguments that are none, looking at most at so
many. -/
def readFlags (known : List Flag) (flags : Flags) :
    Nat → List String → Except Failure (Flags × List String)
  | 0, _ => .ok (flags, [])
  | _, [] => .ok (flags, [])
  | n + 1, arg :: args =>
    match arg.toList with
    | ['-', '-'] => .ok (flags, args)
    | '-' :: '-' :: rest =>
      match takeLong known flags (String.ofList rest) args with
      | .ok (flags, args) => readFlags known flags n args
      | .error f => .error f
    | '-' :: c :: rest =>
      match takeShort known flags (c :: rest) args with
      | .ok (flags, args) => readFlags known flags n args
      | .error f => .error f
    | _ => (readFlags known flags n args).map fun (flags, others) => (flags, arg :: others)

/-- The flags among some arguments, and the arguments that are none. -/
def Flags.read (known : List Flag) (args : List String) :
    Except Failure (Flags × List String) :=
  readFlags known {} args.length args

end Generics.Command
