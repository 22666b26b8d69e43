/-
# Decimal fractions as text

A decimal fraction has an optional sign, digits with at most one point among them, and an
optional exponent after the letter `e`. It counts as a number only if it does not round to more
than a float of 64 bits can be.
-/

namespace Generics.Text.Decimal

/-- The number that decimal digits stand for. -/
def natOf (cs : List Char) : Nat := cs.foldl (fun n c => n * 10 + (c.toNat - '0'.toNat)) 0

/-- Whether characters are one or more decimal digits. -/
def isDigits (cs : List Char) : Bool := !cs.isEmpty && cs.all Char.isDigit

/-- The exponent that characters are, zero if there are none. -/
def exponent? : List Char → Option Int
  | [] => some 0
  | c :: cs =>
    if c == 'e' || c == 'E' then
      match cs with
      | '-' :: ds => if isDigits ds then some (-(natOf ds : Int)) else none
      | '+' :: ds => if isDigits ds then some (natOf ds) else none
      | ds => if isDigits ds then some (natOf ds) else none
    else none

/-- The decimal digits after an optional sign, fraction included, and the power of ten they are
to be multiplied by. -/
def parts? (cs : List Char) : Option (Nat × Int) :=
  let cs := match cs with
    | '+' :: ds => ds
    | '-' :: ds => ds
    | ds => ds
  let whole := cs.takeWhile Char.isDigit
  let (fraction, rest) := match cs.dropWhile Char.isDigit with
    | '.' :: more => (more.takeWhile Char.isDigit, more.dropWhile Char.isDigit)
    | more => ([], more)
  if whole.isEmpty && fraction.isEmpty then none
  else (exponent? rest).map fun e => (natOf (whole ++ fraction), e - fraction.length)

/-- Whether digits times a power of ten do not round to more than a float of 64 bits can be. The
number of places before the point decides, except for numbers of 309 places. -/
def fitsFloat (digits : Nat) (power : Int) : Bool :=
  let places : Int := (Nat.repr digits).length + power
  digits == 0 || places < 309
    || (places == 309
      && digits * Nat.pow 10 power.toNat
        < (Nat.pow 2 54 - 1) * Nat.pow 2 970 * Nat.pow 10 (-power).toNat)

/-- Whether characters are a number that a float can be. -/
def isNumber (cs : List Char) : Bool :=
  match parts? cs with
  | some (digits, power) => fitsFloat digits power
  | none => false

/-- Whether each underscore stands between two digits, given whether a digit and whether an
underscore came last. -/
def isGrouped (afterDigit afterUnderscore : Bool) : List Char → Bool
  | [] => !afterUnderscore
  | c :: cs =>
    if c.isDigit then isGrouped true false cs
    else if c == '_' then afterDigit && isGrouped false true cs
    else !afterUnderscore && isGrouped false false cs

/-- Whether characters are a number in which underscores may stand between digits. -/
def isGroupedNumber (cs : List Char) : Bool :=
  isGrouped false false cs && isNumber (cs.filter (· != '_'))

end Generics.Text.Decimal
