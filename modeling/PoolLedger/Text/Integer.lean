import PoolLedger.Ranged

/-! Decimal text of the ranged integers. One sign may stand in front (a minus
only where the range has negative values), the rest must be ASCII digits, and
leading zeros are allowed. The first character that fails decides the fault. -/

namespace PoolLedger

inductive IntegerFault
  | empty
  | badDigit
  | tooLarge
  | tooSmall
deriving DecidableEq

def IntegerFault.message : IntegerFault → String
  | .empty => "cannot parse integer from empty string"
  | .badDigit => "invalid digit found in string"
  | .tooLarge => "number too large to fit in target type"
  | .tooSmall => "number too small to fit in target type"

namespace Text

def digitValue (c : Char) : Nat := c.toNat - '0'.toNat

def pushDigit (limit : Nat) (fault : IntegerFault) (n : Nat) (c : Char) : Except IntegerFault Nat :=
  if c.isDigit then
    if n * 10 + digitValue c ≤ limit then .ok (n * 10 + digitValue c) else .error fault
  else .error .badDigit

def readDigits (limit : Nat) (fault : IntegerFault) (cs : List Char) : Except IntegerFault Nat :=
  cs.foldlM (pushDigit limit fault) 0

end Text

namespace Ranged

variable {lo hi : Int}

def readUnsigned (digits : List Char) : Except IntegerFault (Ranged lo hi) := do
  let n ← Text.readDigits hi.toNat .tooLarge digits
  match ofInt? (n : Int) with
  | some a => .ok a
  | none => .error .tooLarge

def readNegated (digits : List Char) : Except IntegerFault (Ranged lo hi) := do
  let n ← Text.readDigits (-lo).toNat .tooSmall digits
  match ofInt? (-(n : Int)) with
  | some a => .ok a
  | none => .error .tooSmall

def readChars : List Char → Except IntegerFault (Ranged lo hi)
  | [] => .error .empty
  | ['+'] => .error .badDigit
  | ['-'] => .error .badDigit
  | '+' :: digits => readUnsigned digits
  | '-' :: digits => if lo < 0 then readNegated digits else .error .badDigit
  | digits => readUnsigned digits

def read (s : String) : Except IntegerFault (Ranged lo hi) := readChars s.toList

def read? (s : String) : Option (Ranged lo hi) := (read s).toOption

def readChars? (cs : List Char) : Option (Ranged lo hi) := (readChars cs).toOption

end Ranged

end PoolLedger
