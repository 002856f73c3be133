import PoolLedger.Ranged
import PoolLedger.Real.Basic

/-! Instants in text: date, time of day and offset, with `T` or a blank between
date and time. Fractions of a second are dropped, and a leap second counts as
the second before it. -/

namespace PoolLedger.Instant

def takeNumber (n : Nat) (cs : List Char) : Option (Nat × List Char) :=
  let digits := cs.take n
  if digits.length = n && digits.all Char.isDigit then some (Real.digitsValue digits, cs.drop n)
  else none

def takeChar (c : Char) : List Char → Option (List Char)
  | d :: rest => if d = c then some rest else none
  | [] => none

def isLeapYear (y : Nat) : Bool := y % 4 = 0 && (y % 100 ≠ 0 || y % 400 = 0)

def daysInMonth (y m : Nat) : Nat :=
  match m with
  | 2 => if isLeapYear y then 29 else 28
  | 4 | 6 | 9 | 11 => 30
  | _ => 31

def daysBeforeYear (y : Nat) : Nat :=
  if y = 0 then 0 else y * 365 + (y - 1) / 4 - (y - 1) / 100 + (y - 1) / 400 + 1

def daysBeforeMonth (y m : Nat) : Nat :=
  (List.range (m - 1)).foldl (fun days i => days + daysInMonth y (i + 1)) 0

def dayNumber (y m d : Nat) : Int :=
  (daysBeforeYear y + daysBeforeMonth y m + (d - 1) : Nat) - (daysBeforeYear 1970 : Int)

def skipFraction : List Char → Option (List Char)
  | '.' :: rest =>
    if (rest.takeWhile Char.isDigit).isEmpty then none else some (rest.dropWhile Char.isDigit)
  | rest => some rest

def takeOffset (cs : List Char) : Option (Int × List Char) :=
  let signed := fun (sign : Int) (rest : List Char) => do
    let (hours, rest) ← takeNumber 2 rest
    let rest ← takeChar ':' rest
    let (minutes, rest) ← takeNumber 2 rest
    if hours < 24 ∧ minutes < 60 then some (sign * ((hours * 60 + minutes) * 60 : Nat), rest)
    else none
  match cs with
  | 'Z' :: rest => some (0, rest)
  | 'z' :: rest => some (0, rest)
  | '+' :: rest => signed 1 rest
  | '-' :: rest => signed (-1) rest
  | '\u2212' :: rest => signed (-1) rest
  | _ => none

/-- The Unix seconds of an instant. -/
def read? (s : String) : Option Int := do
  let (year, cs) ← takeNumber 4 s.toList
  let cs ← takeChar '-' cs
  let (month, cs) ← takeNumber 2 cs
  let cs ← takeChar '-' cs
  let (day, cs) ← takeNumber 2 cs
  let cs ←
    match cs with
    | c :: rest => if c = 'T' ∨ c = 't' ∨ c = ' ' then some rest else none
    | [] => none
  let (hour, cs) ← takeNumber 2 cs
  let cs ← takeChar ':' cs
  let (minute, cs) ← takeNumber 2 cs
  let cs ← takeChar ':' cs
  let (second, cs) ← takeNumber 2 cs
  let cs ← skipFraction cs
  let (offset, cs) ← takeOffset cs
  let valid := cs.isEmpty && 1 ≤ month && month ≤ 12 && 1 ≤ day && day ≤ daysInMonth year month &&
    hour < 24 && minute < 60 && second ≤ 60
  if valid then
    some (dayNumber year month day * 86400 + ((hour * 60 + minute) * 60 + min second 59 : Nat) -
      offset)
  else none

end PoolLedger.Instant
