/-
# Timestamps as text

A timestamp is a day, or a day with a time:

| written | |
| --- | --- |
| `2001-12-14` | a day |
| `2001-12-14T21:59:43.10Z` | with `T` or `t`, and a zone at the end |
| `2001-12-14t21:59:43-05:00` | the zone as an offset |
| `2001-12-14 21:59:43.10` | with blanks, and no zone |

The year has four digits, other numbers one or two, those of an offset two. A fraction of
a second follows a point or a comma.
-/

namespace Generics.Text.Timestamp

/-- The number of days in a month. -/
def daysIn (year month : Nat) : Nat :=
  if month ∈ [4, 6, 9, 11] then 30
  else if month = 2 then
    if year % 4 = 0 && (year % 100 != 0 || year % 400 == 0) then 29 else 28
  else 31

/-- The value of a digit. -/
def digitOf (c : Char) : Nat := c.toNat - '0'.toNat

/-- A number of one or two digits, as many as there are, and what follows it. -/
def short? : List Char → Option (Nat × List Char)
  | a :: b :: cs =>
    if !a.isDigit then none
    else if b.isDigit then some (digitOf a * 10 + digitOf b, cs)
    else some (digitOf a, b :: cs)
  | [a] => if a.isDigit then some (digitOf a, []) else none
  | [] => none

/-- What follows a given character. -/
def after? (c : Char) : List Char → Option (List Char)
  | d :: cs => if d == c then some cs else none
  | [] => none

/-- What follows a day: a year, a month and a day of it. -/
def afterDay? (cs : List Char) : Option (List Char) := do
  let year := cs.takeWhile Char.isDigit
  if year.length ≠ 4 then none
  else
    let cs ← after? '-' (cs.drop 4)
    let (month, cs) ← short? cs
    let cs ← after? '-' cs
    let (day, cs) ← short? cs
    let inYear := year.foldl (fun n c => n * 10 + digitOf c) 0
    if 1 ≤ month && month ≤ 12 && 1 ≤ day && day ≤ daysIn inYear month then some cs else none

/-- What follows a fraction of a second, which may be left out. -/
def afterFraction (cs : List Char) : List Char :=
  match cs with
  | c :: d :: ds =>
    if (c == '.' || c == ',') && d.isDigit then ds.dropWhile Char.isDigit else cs
  | _ => cs

/-- What follows a time of the day. -/
def afterTime? (cs : List Char) : Option (List Char) := do
  let (hour, cs) ← short? cs
  let cs ← after? ':' cs
  let (minute, cs) ← short? cs
  let cs ← after? ':' cs
  let (second, cs) ← short? cs
  if hour < 24 && minute < 60 && second < 60 then some (afterFraction cs) else none

/-- Whether characters are a zone: the letter `Z`, or an offset of at most 24 hours and 60
minutes. -/
def isZone : List Char → Bool
  | ['Z'] => true
  | [sign, a, b, colon, d, e] =>
    (sign == '+' || sign == '-') && colon == ':' && [a, b, d, e].all Char.isDigit
      && digitOf a * 10 + digitOf b ≤ 24 && digitOf d * 10 + digitOf e ≤ 60
  | _ => false

/-- Whether characters are a timestamp. -/
def isTimestamp (cs : List Char) : Bool :=
  match afterDay? cs with
  | none => false
  | some [] => true
  | some (c :: rest) =>
    if c == 'T' || c == 't' then ((afterTime? rest).map isZone).getD false
    else if c == ' ' then afterTime? (rest.dropWhile (· == ' ')) == some []
    else false

end Generics.Text.Timestamp
