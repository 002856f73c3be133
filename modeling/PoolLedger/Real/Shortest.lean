import PoolLedger.Real.Basic

/-! The shortest decimal that reads back as a given binary64 value, the
nearest one among those of that length, and the layout in which it is
written. All comparisons are between exact fractions. -/

namespace PoolLedger.Real

structure Fraction where
  num : Nat
  den : Nat

structure Neighbourhood where
  low : Fraction
  mid : Fraction
  high : Fraction
  closed : Bool

def Fraction.le (a b : Fraction) : Bool := a.num * b.den ≤ b.num * a.den
def Fraction.lt (a b : Fraction) : Bool := a.num * b.den < b.num * a.den

def Fraction.binary (m : Nat) (q : Int) : Fraction :=
  if q < 0 then ⟨m, Nat.pow 2 q.natAbs⟩ else ⟨m * Nat.pow 2 q.natAbs, 1⟩

def Fraction.decimal (m : Nat) (e : Int) : Fraction :=
  if e < 0 then ⟨m, Nat.pow 10 e.natAbs⟩ else ⟨m * Nat.pow 10 e.natAbs, 1⟩

def neighbourhood (x : Float) : Neighbourhood :=
  let bits : Nat := x.toBits.toNat % signWeight
  let field : Nat := bits / fieldWeight
  let frac : Nat := bits % fieldWeight
  let m : Nat := if field = 0 then frac else frac + fieldWeight
  let q : Int := if field = 0 then -1074 else field - 1075
  let below := if frac = 0 ∧ 1 < field then 4 * m - 1 else 4 * m - 2
  ⟨.binary below (q - 2), .binary (4 * m) (q - 2), .binary (4 * m + 2) (q - 2), m % 2 = 0⟩

def Neighbourhood.contains (n : Neighbourhood) (v : Fraction) : Bool :=
  if n.closed then n.low.le v && v.le n.high else n.low.lt v && v.lt n.high

def Fraction.leading (a : Fraction) : Int :=
  if a.den ≤ a.num then
    let whole : Nat := a.num / a.den
    ((Nat.toDigits 10 whole).length : Int) - 1
  else
    let places : Nat := ((List.range 330).find? fun j => a.den ≤ a.num * Nat.pow 10 j).getD 330
    Int.negOfNat places

def Fraction.floorAt (a : Fraction) (e : Int) : Nat :=
  if e < 0 then a.num * Nat.pow 10 e.natAbs / a.den else a.num / (a.den * Nat.pow 10 e.natAbs)

/-- The choice on one decimal grid: the neighbour nearer to the value, the
even one at a tie, if it reads back. -/
def onGrid (n : Neighbourhood) (e : Int) : Option (Nat × Int) :=
  let c := n.mid.floorAt e
  let down := Fraction.decimal c e
  let up := Fraction.decimal (c + 1) e
  let downIn := c ≠ 0 && n.contains down
  let upIn := n.contains up
  -- twice the value against the sum of both neighbours
  let twice : Fraction := ⟨2 * n.mid.num, n.mid.den⟩
  let sum := Fraction.decimal (2 * c + 1) e
  if downIn && upIn then
    if twice.lt sum then some (c, e)
    else if sum.lt twice then some (c + 1, e)
    else some (if c % 2 = 0 then c else c + 1, e)
  else if downIn then some (c, e)
  else if upIn then some (c + 1, e)
  else none

def stripZeros (fuel : Nat) (m : Nat) (e : Int) : Nat × Int :=
  match fuel with
  | 0 => (m, e)
  | fuel + 1 => if m % 10 = 0 ∧ m ≠ 0 then stripZeros fuel (m / 10) (e + 1) else (m, e)

def shortest (x : Float) : Nat × Int :=
  let n := neighbourhood x
  let k := n.mid.leading
  match (List.range 17).findSome? fun i : Nat => onGrid n (k - (i : Int)) with
  | some (m, e) => stripZeros 20 m e
  | none => (0, 0)

/-- The layout: positional with a point while the point falls within sixteen
places or at most five zeros follow it, an exponent otherwise. -/
def layout (digits : List Char) (e : Int) : List Char :=
  let len : Int := digits.length
  let point := len + e
  if 0 ≤ e ∧ point ≤ 16 then digits ++ List.replicate e.toNat '0' ++ ['.', '0']
  else if 0 < point ∧ point ≤ 16 then
    digits.take point.toNat ++ ['.'] ++ digits.drop point.toNat
  else if -5 < point ∧ point ≤ 0 then
    ['0', '.'] ++ List.replicate (-point).toNat '0' ++ digits
  else
    let power := 'e' :: (toString (point - 1)).toList
    match digits with
    | d :: r => if r.isEmpty then d :: power else d :: '.' :: r ++ power
    | [] => power

def text (x : Float) : String :=
  let sign := if isNegative x then ['-'] else []
  let body :=
    if x == 0.0 then ['0', '.', '0']
    else
      let (m, e) := shortest x
      layout (Nat.toDigits 10 m) e
  String.ofList (sign ++ body)

end PoolLedger.Real
