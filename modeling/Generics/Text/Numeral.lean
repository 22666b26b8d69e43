/-
# Whole numbers as text

A whole number is written in base ten, or in another base after a mark:

| written | base |
| --- | ---: |
| `0x1f`, `0X1F` | 16 |
| `0o17`, `0O17`, `017` | 8 |
| `0b101`, `0B101` | 2 |
| `42` | 10 |

Single underscores may stand between digits, and between a mark and the first digit. A number
has to fit into 64 bits. Digits are read from the left, so a text that is both too large and
no number fails for what is met first.
-/

namespace Generics.Text.Numeral

/-- Why a text is not taken for a number. -/
inductive Problem
  | syntactic
  | outOfRange
deriving DecidableEq, Repr

/-- The value of a digit, in bases up to sixteen. -/
def digit? (c : Char) : Option Nat :=
  if '0' ≤ c && c ≤ '9' then some (c.toNat - '0'.toNat)
  else if 'a' ≤ c && c ≤ 'f' then some (c.toNat - 'a'.toNat + 10)
  else if 'A' ≤ c && c ≤ 'F' then some (c.toNat - 'A'.toNat + 10)
  else none

/-- The first number above those that 63 bits can hold. -/
def signLimit : Nat := 0x8000000000000000

/-- The number that digits of a base stand for after those read so far; underscores are passed
over. -/
def digits (base value : Nat) : List Char → Except Problem Nat
  | [] => .ok value
  | c :: cs =>
    if c == '_' then digits base value cs
    else match digit? c with
      | none => .error .syntactic
      | some d =>
        if base ≤ d then .error .syntactic
        else if value * base + d < 2 * signLimit then digits base (value * base + d) cs
        else .error .outOfRange

/-- Whether each underscore comes after a digit or a mark and before a digit, given whether the
text goes on after one of the former. -/
def isGrouped (afterDigit : Bool) : List Char → Bool
  | [] => afterDigit
  | c :: cs => if c == '_' then afterDigit && isGrouped false cs else isGrouped true cs

/-- The number that the digits of a base stand for, given whether a mark comes before them. -/
def number (base : Nat) (marked : Bool) (cs : List Char) : Except Problem Nat :=
  match digits base 0 cs with
  | .error p => .error p
  | .ok n => if isGrouped marked cs then .ok n else .error .syntactic

/-- The base of a mark. -/
def baseOf? : Char → Option Nat
  | 'x' | 'X' => some 16
  | 'o' | 'O' => some 8
  | 'b' | 'B' => some 2
  | _ => none

/-- The number without a sign that a text stands for. -/
def unsigned (cs : List Char) : Except Problem Nat :=
  match cs with
  | '0' :: mark :: d :: ds =>
    match baseOf? mark with
    | some base => number base true (d :: ds)
    | none => number 8 true (mark :: d :: ds)
  | ['0', d] => number 8 true [d]
  | _ => number 10 false cs

/-- A number that has to be below a limit. -/
def below (limit : Nat) (cs : List Char) : Except Problem Nat :=
  match unsigned cs with
  | .error p => .error p
  | .ok n => if n < limit then .ok n else .error .outOfRange

/-- The number with an optional sign that a text stands for. -/
def signed (cs : List Char) : Except Problem Int :=
  match cs with
  | '-' :: ds => (below (signLimit + 1) ds).map fun n => -(n : Int)
  | '+' :: ds => (below signLimit ds).map fun n => (n : Int)
  | ds => (below signLimit ds).map fun n => (n : Int)

/-- The number in a given base, with an optional sign and nothing but digits, that a text stands
for. Without a sign it may take all 64 bits. -/
def signedIn (base : Nat) (cs : List Char) : Except Problem Int :=
  let plain (limit : Nat) (ds : List Char) : Except Problem Nat :=
    if ds.isEmpty || ds.contains '_' then .error .syntactic
    else match digits base 0 ds with
      | .error p => .error p
      | .ok n => if n < limit then .ok n else .error .outOfRange
  match cs with
  | '-' :: ds => (plain (signLimit + 1) ds).map fun n => -(n : Int)
  | '+' :: ds => (plain signLimit ds).map fun n => (n : Int)
  | ds => (plain (2 * signLimit) ds).map fun n => (n : Int)

end Generics.Text.Numeral
