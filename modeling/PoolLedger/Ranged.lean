/-! Integers held between two bounds. Token amounts, reserves, block heights,
positions and times are the five ranges in use; a sum or product that would
leave its range stops at the nearer bound, and `checked` tells when that
happens. -/

namespace PoolLedger

/-- An integer with its bounds. The bounds are read off the type, so an
element is also the proof that the range is not empty. -/
structure Ranged (lo hi : Int) where
  val : Int
  lo_le : lo ≤ val
  le_hi : val ≤ hi
deriving DecidableEq

abbrev Amount := Ranged 0 340282366920938463463374607431768211455
abbrev Balance := Ranged (-170141183460469231731687303715884105728)
  170141183460469231731687303715884105727
abbrev Height := Ranged 0 18446744073709551615
abbrev Word := Ranged (-9223372036854775808) 9223372036854775807
abbrev Timestamp := Word
abbrev Index := Ranged 0 4294967295

namespace Ranged

variable {lo hi : Int}

@[ext] theorem ext {a b : Ranged lo hi} (h : a.val = b.val) : a = b := by
  cases a; cases b; simp_all

theorem lo_le_hi (a : Ranged lo hi) : lo ≤ hi := Int.le_trans a.lo_le a.le_hi

def ofInt? (n : Int) : Option (Ranged lo hi) :=
  if h : lo ≤ n ∧ n ≤ hi then some ⟨n, h.1, h.2⟩ else none

theorem ofInt?_val (a : Ranged lo hi) : ofInt? a.val = some a := by
  simp [ofInt?, a.lo_le, a.le_hi]

theorem ofInt?_eq_some_iff {n : Int} {a : Ranged lo hi} : ofInt? n = some a ↔ a.val = n := by
  unfold ofInt?
  split
  · simp [Ranged.ext_iff]
    exact eq_comm
  · rename_i h
    simp only [reduceCtorEq, false_iff]
    exact fun e => h (e ▸ ⟨a.lo_le, a.le_hi⟩)

def clamp (h : lo ≤ hi) (n : Int) : Ranged lo hi :=
  ⟨max lo (min n hi), by omega, by omega⟩

@[simp] theorem clamp_val (h : lo ≤ hi) (n : Int) : (clamp h n).val = max lo (min n hi) := rfl

/-- Another value of the range of `a`, stopped at the bounds. -/
def pull (a : Ranged lo hi) (n : Int) : Ranged lo hi := clamp a.lo_le_hi n

@[simp] theorem pull_val (a : Ranged lo hi) (n : Int) : (a.pull n).val = max lo (min n hi) := rfl

theorem pull_self (a : Ranged lo hi) : a.pull a.val = a := by
  have := a.lo_le; have := a.le_hi
  ext; simp only [pull_val]; omega

def satAdd (a b : Ranged lo hi) : Ranged lo hi := a.pull (a.val + b.val)
def satSub (a b : Ranged lo hi) : Ranged lo hi := a.pull (a.val - b.val)
def satMul (a b : Ranged lo hi) : Ranged lo hi := a.pull (a.val * b.val)

def quot (a b : Ranged lo hi) : Ranged lo hi := a.pull (a.val.tdiv b.val)

def checkedAdd (a b : Ranged lo hi) : Option (Ranged lo hi) := ofInt? (a.val + b.val)

instance : LE (Ranged lo hi) := ⟨fun a b => a.val ≤ b.val⟩
instance : LT (Ranged lo hi) := ⟨fun a b => a.val < b.val⟩
instance (a b : Ranged lo hi) : Decidable (a ≤ b) := inferInstanceAs (Decidable (a.val ≤ b.val))
instance (a b : Ranged lo hi) : Decidable (a < b) := inferInstanceAs (Decidable (a.val < b.val))

theorem le_def {a b : Ranged lo hi} : a ≤ b ↔ a.val ≤ b.val := Iff.rfl
theorem lt_def {a b : Ranged lo hi} : a < b ↔ a.val < b.val := Iff.rfl

def larger (a b : Ranged lo hi) : Ranged lo hi := if a.val < b.val then b else a

def smaller (a b : Ranged lo hi) : Ranged lo hi := if b.val < a.val then b else a

def toNat (a : Ranged lo hi) : Nat := a.val.toNat

instance : ToString (Ranged lo hi) := ⟨fun a => toString a.val⟩

end Ranged

instance {n : Nat} : OfNat Amount n := ⟨Ranged.clamp (by decide) n⟩
instance {n : Nat} : OfNat Balance n := ⟨Ranged.clamp (by decide) n⟩
instance {n : Nat} : OfNat Height n := ⟨Ranged.clamp (by decide) n⟩
instance {n : Nat} : OfNat Word n := ⟨Ranged.clamp (by decide) n⟩
instance {n : Nat} : OfNat Index n := ⟨Ranged.clamp (by decide) n⟩

instance : Inhabited Amount := ⟨0⟩
instance : Inhabited Balance := ⟨0⟩
instance : Inhabited Height := ⟨0⟩
instance : Inhabited Word := ⟨0⟩
instance : Inhabited Index := ⟨0⟩

def Amount.toBalance (a : Amount) : Balance := (0 : Balance).pull a.val

theorem Amount.zero_val : (0 : Amount).val = 0 := by decide
theorem Height.zero_val : (0 : Height).val = 0 := by decide
theorem Height.one_val : (1 : Height).val = 1 := by decide

end PoolLedger
