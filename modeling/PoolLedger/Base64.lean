/-! Base64 with the standard alphabet. Padding is required, stands only at the
end, and the bits under it are zero, so each byte string has one text. -/

namespace PoolLedger.Base64

def symbol (n : Nat) : Char :=
  if n < 26 then Char.ofNat ('A'.toNat + n)
  else if n < 52 then Char.ofNat ('a'.toNat + (n - 26))
  else if n < 62 then Char.ofNat ('0'.toNat + (n - 52))
  else if n = 62 then '+'
  else '/'

def value? (c : Char) : Option Nat :=
  if 'A' ≤ c ∧ c ≤ 'Z' then some (c.toNat - 'A'.toNat)
  else if 'a' ≤ c ∧ c ≤ 'z' then some (c.toNat - 'a'.toNat + 26)
  else if '0' ≤ c ∧ c ≤ '9' then some (c.toNat - '0'.toNat + 52)
  else if c = '+' then some 62
  else if c = '/' then some 63
  else none

def encode : List UInt8 → List Char
  | a :: b :: c :: rest =>
    symbol (a.toNat / 4) :: symbol (a.toNat % 4 * 16 + b.toNat / 16) ::
      symbol (b.toNat % 16 * 4 + c.toNat / 64) :: symbol (c.toNat % 64) :: encode rest
  | [a, b] =>
    [symbol (a.toNat / 4), symbol (a.toNat % 4 * 16 + b.toNat / 16), symbol (b.toNat % 16 * 4), '=']
  | [a] => [symbol (a.toNat / 4), symbol (a.toNat % 4 * 16), '=', '=']
  | [] => []

/-- The bytes before, last first, with those of the symbols added. -/
def decodeFrom (acc : List UInt8) : List Char → Option (List UInt8)
  | [] => some acc.reverse
  | [a, b, '=', '='] => do
    let x ← value? a
    let y ← value? b
    if y % 16 = 0 then some (UInt8.ofNat (x * 4 + y / 16) :: acc).reverse else none
  | [a, b, c, '='] => do
    let x ← value? a
    let y ← value? b
    let z ← value? c
    if z % 4 = 0 then
      some (UInt8.ofNat (y % 16 * 16 + z / 4) :: UInt8.ofNat (x * 4 + y / 16) :: acc).reverse
    else none
  | a :: b :: c :: d :: rest => do
    let x ← value? a
    let y ← value? b
    let z ← value? c
    let w ← value? d
    decodeFrom (UInt8.ofNat (z % 4 * 64 + w) :: UInt8.ofNat (y % 16 * 16 + z / 4) ::
      UInt8.ofNat (x * 4 + y / 16) :: acc) rest
  | _ => none

def decode? (cs : List Char) : Option (List UInt8) := decodeFrom [] cs

def encodeText (bytes : List UInt8) : String := String.ofList (encode bytes)

def decodeText? (s : String) : Option (List UInt8) := decode? s.toList

end PoolLedger.Base64
