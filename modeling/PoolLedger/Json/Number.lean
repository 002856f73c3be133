import PoolLedger.Json
import PoolLedger.Real.Basic

/-! Numbers in JSON text. An integer of 64 bits stays an integer. Any other
number is a real: the digits that fit 64 bits, times or divided by a power of
ten, each step rounded once. -/

namespace PoolLedger.Json

def maxWord : Nat := 18446744073709551615

structure Numeral where
  negative : Bool
  whole : List Char
  fraction : List Char
  exponent : Option (Bool × List Char)

def digitValue (c : Char) : Nat := c.toNat - '0'.toNat

def takeWord (n : Nat) : List Char → Nat × List Char
  | [] => (n, [])
  | c :: cs =>
    if n * 10 + digitValue c ≤ maxWord then takeWord (n * 10 + digitValue c) cs else (n, c :: cs)

def maxExponent : Nat := 2147483647

/-- The value `m · 10 ^ e`; none when it passes the largest real. -/
def scaleReal (x : Float) (e : Int) : Option Float :=
  if e.natAbs ≤ 308 then
    let p := Float.ofScientific 1 false e.natAbs
    if 0 ≤ e then
      if (x * p).isInf then none else some (x * p)
    else some (x / p)
  else if x == 0.0 then some x
  else if 0 ≤ e then none
  else scaleReal (x / Float.ofScientific 1 false 308) (e + 308)
termination_by e.natAbs
decreasing_by omega

def signed (negative : Bool) (x : Float) : Float := if negative then -x else x

def Numeral.real? (n : Numeral) : Option Float :=
  let (w, dropped) := takeWord 0 n.whole
  let (m, ignored) := takeWord w n.fraction
  let shift : Int := (dropped.length : Int) - ((n.fraction.length : Int) - ignored.length)
  match n.exponent with
  | none => (scaleReal (Float.ofNat m) shift).map (signed n.negative)
  | some (minus, digits) =>
    let e := Nat.ofDigitChars 10 digits 0
    if maxExponent < e then
      if m ≠ 0 ∧ !minus then none else some (signed n.negative 0.0)
    else
      (scaleReal (Float.ofNat m) (if minus then shift - e else shift + e)).map (signed n.negative)

def Numeral.leaf (n : Numeral) : Json :=
  let v := Nat.ofDigitChars 10 n.whole 0
  let isInteger := n.fraction.isEmpty && n.exponent.isNone
  if isInteger && !n.negative && v ≤ maxWord then .int v
  else if isInteger && n.negative && v ≠ 0 && v ≤ 9223372036854775808 then .int (-(v : Int))
  else
    match n.real? with
    | some x => .real x
    | none => .unreadable

end PoolLedger.Json
