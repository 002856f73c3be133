import Mathlib.Algebra.Order.BigOperators.Group.List
import Mathlib.Algebra.Order.Ring.Int
import PoolLedger.Snapshot

/-! Plain negation, addition and division fail outside their range. The fees of
liquidity and the running reserves are written here with these failing
operations, and they never fail: what is divided by is not zero, and what is
negated is not negative. -/

namespace PoolLedger

namespace Ranged

variable {lo hi : Int}

def checkedNeg (a : Ranged lo hi) : Option (Ranged lo hi) := ofInt? (-a.val)

def checkedQuot (a b : Ranged lo hi) : Option (Ranged lo hi) :=
  if b.val = 0 then none else ofInt? (a.val.tdiv b.val)

theorem ofInt?_eq_pull (a : Ranged lo hi) {n : Int} (hlo : lo ≤ n) (hhi : n ≤ hi) :
    ofInt? n = some (a.pull n) := by
  rw [ofInt?_eq_some_iff, pull_val]
  omega

theorem sum_nonneg (xs : List (Ranged 0 hi)) : 0 ≤ (xs.map val).sum :=
  List.sum_nonneg (List.forall_mem_map.2 fun x _ => x.lo_le)

end Ranged

def Amount.max : Int := 340282366920938463463374607431768211455

theorem Amount.checkedQuot_eq {a b : Amount} (hb : b.val ≠ 0) :
    a.checkedQuot b = some (a.quot b) := by
  have := a.lo_le
  have := a.le_hi
  have hle : a.val.tdiv b.val ≤ a.val := by
    rw [Int.tdiv_eq_ediv_of_nonneg a.lo_le]
    exact Int.ediv_le_self _ a.lo_le
  rw [Ranged.checkedQuot, if_neg hb]
  exact a.ofInt?_eq_pull (Int.tdiv_nonneg a.lo_le b.lo_le) (by omega)

theorem Balance.checkedQuot_eq {a b : Balance} (hb : 0 < b.val) :
    a.checkedQuot b = some (a.quot b) := by
  have := a.lo_le
  have := a.le_hi
  have hneg (n : Int) (hn : 0 ≤ n) : 0 ≤ n.tdiv b.val ∧ n.tdiv b.val ≤ n := by
    rw [Int.tdiv_eq_ediv_of_nonneg hn]
    exact ⟨Int.ediv_nonneg hn (by omega), Int.ediv_le_self _ hn⟩
  rw [Ranged.checkedQuot, if_neg (by omega)]
  by_cases ha : 0 ≤ a.val
  · obtain ⟨h₁, h₂⟩ := hneg a.val ha
    exact a.ofInt?_eq_pull (by omega) (by omega)
  · obtain ⟨h₁, h₂⟩ := hneg (-a.val) (by omega)
    rw [Int.neg_tdiv] at h₁ h₂
    exact a.ofInt?_eq_pull (by omega) (by omega)

theorem Amount.toBalance_nonneg (a : Amount) : 0 ≤ a.toBalance.val := by
  have := a.lo_le
  simp only [Amount.toBalance, Ranged.pull_val]
  omega

theorem Balance.checkedNeg_eq {b : Balance} (hb : 0 ≤ b.val) : b.checkedNeg = some b.neg := by
  have := b.le_hi
  exact b.ofInt?_eq_pull (by omega) (by omega)

def nativeTax? (refund : Amount) : Option Amount := do
  let rate ← taxDenominator.checkedAdd taxNumerator
  let net ← (refund.satMul taxDenominator).checkedQuot rate
  return (refund.satSub net).smaller taxCap

theorem nativeTax?_eq (refund : Amount) : nativeTax? refund = some (nativeTax refund) := by
  have hrate : taxDenominator.checkedAdd taxNumerator =
      some (taxDenominator.satAdd taxNumerator) := by decide
  have hne : (taxDenominator.satAdd taxNumerator).val ≠ 0 := by decide
  rw [nativeTax?, hrate]
  simp only [Option.bind_eq_bind, Option.bind_some, Amount.checkedQuot_eq hne]
  rfl

namespace Reserves

def refundOf? (r : Reserves) (reserve share : Amount) : Option Amount :=
  if r.totalShare = 0 then some 0 else (reserve.satMul share).checkedQuot r.totalShare

theorem refundOf?_eq (r : Reserves) (reserve share : Amount) :
    r.refundOf? reserve share = some (r.refundOf reserve share) := by
  unfold refundOf? refundOf
  split
  · rfl
  · rename_i h
    exact Amount.checkedQuot_eq fun hv => h (Ranged.ext hv)

def taxOf? (r : Reserves) (reserve share : Amount) : Option Amount :=
  (r.refundOf? reserve share).bind nativeTax?

theorem taxOf?_eq (r : Reserves) (reserve share : Amount) :
    r.taxOf? reserve share = some (nativeTax (r.refundOf reserve share)) := by
  rw [taxOf?, refundOf?_eq, Option.bind_some, nativeTax?_eq]

def baseFee? (r : Reserves) (p : Pair) (share : Amount) : Option Amount :=
  if p.base.isNative then r.taxOf? r.base share else some 0

def quoteFee? (r : Reserves) (p : Pair) (share : Amount) : Option Amount :=
  if p.quote.isNative ∧ r.quote ≠ 0 then
    (r.taxOf? r.quote share).bind fun tax => (tax.satMul r.base).checkedQuot r.quote
  else some 0

def fee? (r : Reserves) (p : Pair) (share : Amount) : Option Amount := do
  let baseFee ← r.baseFee? p share
  let quoteFee ← r.quoteFee? p share
  return baseFee.satAdd quoteFee

theorem fee?_eq (r : Reserves) (p : Pair) (share : Amount) :
    r.fee? p share = some (r.fee p share) := by
  have hbase : r.baseFee? p share =
      some (if p.base.isNative then nativeTax (r.refundOf r.base share) else 0) := by
    rw [baseFee?, taxOf?_eq]
    split <;> rfl
  have hquote : r.quoteFee? p share = some (if p.quote.isNative ∧ r.quote ≠ 0 then
      ((nativeTax (r.refundOf r.quote share)).satMul r.base).quot r.quote else 0) := by
    rw [quoteFee?, taxOf?_eq]
    split
    · rename_i h
      rw [Option.bind_some, Amount.checkedQuot_eq fun hv => h.2 (Ranged.ext hv)]
    · rfl
  rw [fee?, hbase, hquote]
  rfl

end Reserves

def Swap.delta? (s : Swap) : Option Delta := do
  let returned ← s.returnAmount.toBalance.checkedNeg
  match s.direction with
  | .sell => return ⟨s.offerAmount.toBalance, returned⟩
  | .buy => return ⟨returned, s.offerAmount.toBalance⟩

theorem Swap.delta?_eq (s : Swap) : s.delta? = some s.delta := by
  rw [delta?, delta, Balance.checkedNeg_eq s.returnAmount.toBalance_nonneg]
  cases s.direction <;> rfl

namespace LiquidityChange

def delta? (e : LiquidityChange) : Option Delta :=
  match e.op with
  | .provide => some ⟨e.baseAmount.toBalance, e.quoteAmount.toBalance⟩
  | .withdraw => do
    return ⟨← e.baseAmount.toBalance.checkedNeg, ← e.quoteAmount.toBalance.checkedNeg⟩

theorem delta?_eq (e : LiquidityChange) : e.delta? = some e.delta := by
  rw [delta?, delta, Balance.checkedNeg_eq e.baseAmount.toBalance_nonneg,
    Balance.checkedNeg_eq e.quoteAmount.toBalance_nonneg]
  cases e.op <;> rfl

def nextTotalShare? (e : LiquidityChange) (total base delta : Balance) : Option Balance :=
  if 0 < total ∧ 0 < base then
    ((total.satMul delta).checkedQuot base).map total.satAdd
  else
    match e.op with
    | .provide => some (total.satAdd e.share.toBalance)
    | .withdraw => some (total.satSub e.share.toBalance)

theorem nextTotalShare?_eq (e : LiquidityChange) (total base delta : Balance) :
    e.nextTotalShare? total base delta = some (e.nextTotalShare total base delta) := by
  unfold nextTotalShare? nextTotalShare
  split
  · rename_i h
    rw [Balance.checkedQuot_eq h.2, Option.map_some]
  · cases e.op <;> rfl

end LiquidityChange

namespace PoolState

def applied? (s : PoolState) : PoolChange → Option PoolState
  | .swap x => do
    let d ← x.delta?
    return ⟨s.base.satAdd d.base, s.quote.satAdd d.quote, s.totalShare⟩
  | .liquidity e => do
    let d ← e.delta?
    let total ← e.nextTotalShare? s.totalShare s.base d.base
    return ⟨s.base.satAdd d.base, s.quote.satAdd d.quote, total⟩

theorem applied?_eq (s : PoolState) (c : PoolChange) : s.applied? c = some (s.apply c) := by
  cases c with
  | swap x =>
    rw [applied?, Swap.delta?_eq]
    rfl
  | liquidity e =>
    simp only [applied?, LiquidityChange.delta?_eq, Option.bind_eq_bind, Option.bind_some,
      LiquidityChange.nextTotalShare?_eq]
    rfl

def history? (address : String) : PoolState → List PoolChange → Option (List Snapshot)
  | _, [] => some []
  | s, c :: rest => do
    let s' ← s.applied? c
    let later ← history? address s' rest
    return .of address s'.base s'.quote s'.totalShare c.position.height c.timestamp :: later

theorem history?_eq (address : String) (s : PoolState) (changes : List PoolChange) :
    history? address s changes = some (history address s changes) := by
  induction changes generalizing s with
  | nil => rfl
  | cons c rest ih =>
    rw [history?, applied?_eq]
    simp only [Option.bind_eq_bind, Option.bind_some, ih]
    rfl

end PoolState

end PoolLedger
