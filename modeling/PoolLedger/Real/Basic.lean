import PoolLedger.Ranged

/-! Reals in binary64. Amounts round to the nearest value with ties to even,
integer powers multiply by repeated squaring, and decimal text is read as the
value nearest to it. -/

namespace PoolLedger

def Amount.toReal (a : Amount) : Float := Float.ofNat a.toNat

namespace Real

def signWeight : Nat := 9223372036854775808

def fieldWeight : Nat := 4503599627370496

def isNegative (x : Float) : Bool := signWeight ≤ x.toBits.toNat

def isFinite (x : Float) : Bool := x.toBits.toNat / fieldWeight % 2048 < 2047

def larger (a b : Float) : Float :=
  if a.isNaN then b else if b.isNaN then a else if a < b then b else a

def smaller (a b : Float) : Float :=
  if a.isNaN then b else if b.isNaN then a else if b < a then b else a

def powerFrom (r a : Float) (n : Nat) : Float :=
  let r := if n % 2 = 1 then r * a else r
  if h : n / 2 = 0 then r else powerFrom r (a * a) (n / 2)
termination_by n
decreasing_by omega

/-- An integer power. A negative exponent inverts the finished power. -/
def power (a : Float) (n : Int) : Float :=
  let p := powerFrom 1.0 a n.natAbs
  if n < 0 then 1.0 / p else p

/-- The exponent that 32 bits of `n` stand for in two's complement. -/
def exponentOf (n : Index) : Int := Int.bmod n.val 4294967296

def scaled (amount : Amount) (decimals : Index) : Float :=
  amount.toReal / power 10.0 (exponentOf decimals)

/-- The value nearest to `digits · 10 ^ e`. Far exponents are settled by the
size of the number, so that no long power is formed. -/
def ofDecimal (digits : Nat) (e : Int) : Float :=
  if digits = 0 then 0.0
  else
    let size := (Nat.toDigits 10 digits).length + e
    if 310 < size then Float.ofBits 0x7FF0000000000000
    else if size < -330 then 0.0
    else Float.ofScientific digits (e < 0) e.natAbs

def lowerAscii (cs : List Char) : List Char := cs.map Char.toLower

def digitsValue (cs : List Char) : Nat := Nat.ofDigitChars 10 cs 0

def readExponent? : List Char → Option Int
  | '+' :: cs => if !cs.isEmpty && cs.all Char.isDigit then some (digitsValue cs) else none
  | '-' :: cs => if !cs.isEmpty && cs.all Char.isDigit then some (-(digitsValue cs : Int)) else none
  | cs => if !cs.isEmpty && cs.all Char.isDigit then some (digitsValue cs) else none

def readMagnitude? (cs : List Char) : Option Float :=
  let word := String.ofList (lowerAscii cs)
  if word = "inf" ∨ word = "infinity" then some (Float.ofBits 0x7FF0000000000000)
  else if word = "nan" then some (Float.ofBits 0x7FF8000000000000)
  else
    let whole := cs.takeWhile Char.isDigit
    let afterWhole := cs.dropWhile Char.isDigit
    let (part, tail) :=
      match afterWhole with
      | '.' :: r => (r.takeWhile Char.isDigit, r.dropWhile Char.isDigit)
      | r => ([], r)
    if whole.isEmpty && part.isEmpty then none
    else
      let exponent :=
        match tail with
        | [] => some 0
        | c :: r => if c = 'e' ∨ c = 'E' then readExponent? r else none
      exponent.map fun e => ofDecimal (digitsValue (whole ++ part)) (e - part.length)

def read? (s : String) : Option Float :=
  match s.toList with
  | '+' :: cs => readMagnitude? cs
  | '-' :: cs => (readMagnitude? cs).map fun x => -x
  | cs => readMagnitude? cs

end Real

end PoolLedger
