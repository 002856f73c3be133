import PoolLedger.Pair

/-! Reserves of a pool in canonical order, and the protocol fee on withdrawn
liquidity. Only coins of the chain are taxed. The tax on the quote side counts
in base units at the ratio of the pool. -/

namespace PoolLedger

def taxNumerator : Amount := 3
def taxDenominator : Amount := 1000

def taxCap : Amount := 1000000

/-- The part of a refund that is not its net value, up to the cap. -/
def nativeTax (refund : Amount) : Amount :=
  let net := (refund.satMul taxDenominator).quot (taxDenominator.satAdd taxNumerator)
  (refund.satSub net).smaller taxCap

structure Reserves where
  base : Amount
  quote : Amount
  totalShare : Amount
deriving DecidableEq

namespace Reserves

def none : Reserves := ⟨0, 0, 0⟩

def ofReport (p : Pair) (report : PoolReport) : Reserves :=
  ⟨report.amountOf p.base.denom, report.amountOf p.quote.denom, report.totalShare⟩

def refundOf (r : Reserves) (reserve share : Amount) : Amount :=
  if r.totalShare = 0 then 0 else (reserve.satMul share).quot r.totalShare

def fee (r : Reserves) (p : Pair) (share : Amount) : Amount :=
  let baseFee := if p.base.isNative then nativeTax (r.refundOf r.base share) else 0
  let quoteFee :=
    if p.quote.isNative ∧ r.quote ≠ 0 then
      ((nativeTax (r.refundOf r.quote share)).satMul r.base).quot r.quote
    else 0
  baseFee.satAdd quoteFee

end Reserves

end PoolLedger
