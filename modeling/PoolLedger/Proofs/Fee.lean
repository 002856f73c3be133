import Mathlib.Algebra.Order.Group.Unbundled.Int
import Mathlib.Algebra.Order.Ring.Int
import Mathlib.Data.Rat.Floor
import PoolLedger.Proofs.Arithmetic

/-! The protocol fee against exact arithmetic. The tax on a refund is 3/1003 of
it, rounded up, and at most the cap, also where the product it is computed from
stops at the largest amount. The fee is made of exact quotients as long as its
products and their sum are amounts. For all shares it rises with the share and
stays below the caps of both sides. -/

namespace PoolLedger

namespace Amount

theorem satMul_val (a b : Amount) : (a.satMul b).val = min (a.val * b.val) Amount.max := by
  have := Int.mul_nonneg a.lo_le b.lo_le
  simp only [Ranged.satMul, Ranged.pull_val, Amount.max]
  omega

theorem satAdd_val (a b : Amount) : (a.satAdd b).val = min (a.val + b.val) Amount.max := by
  have := a.lo_le
  have := b.lo_le
  simp only [Ranged.satAdd, Ranged.pull_val, Amount.max]
  omega

theorem quot_val (a b : Amount) : (a.quot b).val = a.val / b.val := by
  have hle : a.val / b.val ≤ a.val := Int.ediv_le_self _ a.lo_le
  have hnonneg : 0 ≤ a.val / b.val := Int.ediv_nonneg a.lo_le b.lo_le
  have hmax := a.le_hi
  rw [Ranged.quot, Ranged.pull_val, Int.tdiv_eq_ediv_of_nonneg a.lo_le]
  omega

theorem div_mono (b : Amount) {m n : Int} (h : m ≤ n) : m / b.val ≤ n / b.val := by
  rcases Int.lt_or_eq_of_le b.lo_le with hb | hb
  · exact Int.ediv_le_ediv hb h
  · rw [← hb, Int.ediv_zero, Int.ediv_zero]

theorem floor_div (n : Int) (b : Amount) : ⌊(n : ℚ) / (b.val : ℚ)⌋ = n / b.val := by
  obtain ⟨d, hd⟩ := Int.eq_ofNat_of_zero_le b.lo_le
  rw [hd, Int.cast_natCast, Rat.floor_intCast_div_natCast]

end Amount

/-- The tax on a refund in exact numbers. -/
def exactTax (refund : Int) : Int := min ⌈(3 * refund : ℚ) / 1003⌉ 1000000

theorem exactTax_eq (refund : Int) : exactTax refund = min (-(-(3 * refund) / 1003)) 1000000 := by
  have hceil := Rat.ceil_intCast_div_natCast (3 * refund) 1003
  push_cast at hceil
  rw [exactTax, hceil]

theorem exactTax_mono {m n : Int} (h : m ≤ n) : exactTax m ≤ exactTax n := by
  rw [exactTax_eq, exactTax_eq]
  omega

theorem exactTax_le (refund : Int) : exactTax refund ≤ 1000000 := min_le_right _ _

theorem nativeTax_val (refund : Amount) : (nativeTax refund).val = exactTax refund.val := by
  have hlo := refund.lo_le
  have hnet : ((refund.satMul taxDenominator).quot (taxDenominator.satAdd taxNumerator)).val =
      min (refund.val * 1000) Amount.max / 1003 := by
    rw [Amount.quot_val, Amount.satMul_val]
    rfl
  have hcap : taxCap.val = 1000000 := by decide
  rw [exactTax_eq, nativeTax, Ranged.smaller, Ranged.satSub]
  simp only [apply_ite Ranged.val, Ranged.pull_val, hnet, hcap, Amount.max]
  -- where the product stops at the largest amount the tax is capped in both numbers
  split <;> omega

namespace Reserves

variable {r : Reserves} {p : Pair}

def exactRefund (r : Reserves) (reserve share : Amount) : Int :=
  ⌊(reserve.val * share.val : ℚ) / r.totalShare.val⌋

/-- The fee in exact numbers: the tax on the base side, and that on the quote
side at the ratio of the pool, rounded down. -/
def exactFee (r : Reserves) (p : Pair) (share : Amount) : Int :=
  (if p.base.isNative then exactTax (r.exactRefund r.base share) else 0) +
    if p.quote.isNative then
      ⌊(exactTax (r.exactRefund r.quote share) * r.base.val : ℚ) / r.quote.val⌋
    else 0

/-- The products behind a fee and the fee itself are amounts. -/
structure FeeFits (r : Reserves) (p : Pair) (share : Amount) : Prop where
  base : p.base.isNative → r.base.val * share.val ≤ Amount.max
  quote : p.quote.isNative → r.quote.val * share.val ≤ Amount.max
  converted : p.quote.isNative → exactTax (r.exactRefund r.quote share) * r.base.val ≤ Amount.max
  sum : r.exactFee p share ≤ Amount.max

def feeCap (r : Reserves) (p : Pair) : Int :=
  (if p.base.isNative then 1000000 else 0) +
    if p.quote.isNative ∧ 0 < r.quote.val then ⌊(1000000 * r.base.val : ℚ) / r.quote.val⌋ else 0

theorem exactRefund_eq (reserve share : Amount) :
    r.exactRefund reserve share = reserve.val * share.val / r.totalShare.val := by
  rw [exactRefund, ← Int.cast_mul, Amount.floor_div]

theorem refundOf_val (reserve share : Amount) : (r.refundOf reserve share).val =
    min (reserve.val * share.val) Amount.max / r.totalShare.val := by
  rw [refundOf]
  split
  · rename_i h
    rw [h, Amount.zero_val, Int.ediv_zero]
  · rw [Amount.quot_val, Amount.satMul_val]

theorem refundOf_exact {reserve share : Amount} (h : reserve.val * share.val ≤ Amount.max) :
    (r.refundOf reserve share).val = r.exactRefund reserve share := by
  rw [refundOf_val, min_eq_left h, exactRefund_eq]

theorem refundOf_mono (reserve : Amount) {share share' : Amount} (h : share ≤ share') :
    (r.refundOf reserve share).val ≤ (r.refundOf reserve share').val := by
  rw [refundOf_val, refundOf_val]
  refine r.totalShare.div_mono (min_le_min_right _ ?_)
  exact Int.mul_le_mul_of_nonneg_left h reserve.lo_le

def taxOf (r : Reserves) (reserve share : Amount) : Amount := nativeTax (r.refundOf reserve share)

theorem taxOf_mono (reserve : Amount) {share share' : Amount} (h : share ≤ share') :
    (r.taxOf reserve share).val ≤ (r.taxOf reserve share').val := by
  rw [taxOf, taxOf, nativeTax_val, nativeTax_val]
  exact exactTax_mono (refundOf_mono reserve h)

theorem taxOf_le (reserve share : Amount) : (r.taxOf reserve share).val ≤ 1000000 := by
  rw [taxOf, nativeTax_val]
  exact exactTax_le _

def baseFee (r : Reserves) (p : Pair) (share : Amount) : Amount :=
  if p.base.isNative then r.taxOf r.base share else 0

def quoteFee (r : Reserves) (p : Pair) (share : Amount) : Amount :=
  if p.quote.isNative ∧ r.quote ≠ 0 then ((r.taxOf r.quote share).satMul r.base).quot r.quote
  else 0

theorem fee_val (share : Amount) : (r.fee p share).val =
    min ((r.baseFee p share).val + (r.quoteFee p share).val) Amount.max :=
  Amount.satAdd_val _ _

theorem baseFee_exact {share : Amount} (h : FeeFits r p share) : (r.baseFee p share).val =
    if p.base.isNative then exactTax (r.exactRefund r.base share) else 0 := by
  rw [baseFee]
  split
  · rename_i hnative
    rw [taxOf, nativeTax_val, refundOf_exact (h.base hnative)]
  · rfl

theorem quoteFee_val (hnative : p.quote.isNative) (share : Amount) : (r.quoteFee p share).val =
    min ((r.taxOf r.quote share).val * r.base.val) Amount.max / r.quote.val := by
  rw [quoteFee]
  split
  · rw [Amount.quot_val, Amount.satMul_val]
  · -- without a quote reserve nothing is refunded on that side, so nothing is taxed
    rename_i h
    have hzero : r.quote = 0 := by
      by_contra hne
      exact h ⟨hnative, hne⟩
    rw [hzero, Amount.zero_val, Int.ediv_zero]

theorem quoteFee_exact {share : Amount} (h : FeeFits r p share) : (r.quoteFee p share).val =
    if p.quote.isNative then
      ⌊(exactTax (r.exactRefund r.quote share) * r.base.val : ℚ) / r.quote.val⌋
    else 0 := by
  split
  · rename_i hnative
    have htax : (r.taxOf r.quote share).val = exactTax (r.exactRefund r.quote share) := by
      rw [taxOf, nativeTax_val, refundOf_exact (h.quote hnative)]
    rw [quoteFee_val hnative, htax, min_eq_left (h.converted hnative), ← Int.cast_mul,
      Amount.floor_div]
  · rename_i hnative
    rw [quoteFee, if_neg fun h => hnative h.1]
    rfl

theorem fee_exact {share : Amount} (h : FeeFits r p share) :
    (r.fee p share).val = r.exactFee p share := by
  rw [fee_val, baseFee_exact h, quoteFee_exact h]
  exact min_eq_left h.sum

theorem baseFee_mono {share share' : Amount} (h : share ≤ share') :
    (r.baseFee p share).val ≤ (r.baseFee p share').val := by
  rw [baseFee, baseFee]
  split
  · exact taxOf_mono r.base h
  · exact Int.le_refl _

theorem quoteFee_mono {share share' : Amount} (h : share ≤ share') :
    (r.quoteFee p share).val ≤ (r.quoteFee p share').val := by
  by_cases hnative : p.quote.isNative
  · rw [quoteFee_val hnative, quoteFee_val hnative]
    refine r.quote.div_mono (min_le_min_right _ ?_)
    exact Int.mul_le_mul_of_nonneg_right (taxOf_mono r.quote h) r.base.lo_le
  · rw [quoteFee, quoteFee, if_neg fun h => hnative h.1, if_neg fun h => hnative h.1]

theorem fee_mono {share share' : Amount} (h : share ≤ share') :
    r.fee p share ≤ r.fee p share' := by
  rw [Ranged.le_def, fee_val, fee_val]
  exact min_le_min_right _ (Int.add_le_add (baseFee_mono h) (quoteFee_mono h))

theorem baseFee_le (share : Amount) :
    (r.baseFee p share).val ≤ if p.base.isNative then 1000000 else 0 := by
  rw [baseFee]
  split
  · exact taxOf_le r.base share
  · exact Int.le_refl _

theorem quoteFee_le (share : Amount) : (r.quoteFee p share).val ≤
    if p.quote.isNative ∧ 0 < r.quote.val then ⌊(1000000 * r.base.val : ℚ) / r.quote.val⌋ else 0 := by
  have hfloor := Amount.floor_div (1000000 * r.base.val) r.quote
  push_cast at hfloor
  split
  · rename_i h
    rw [quoteFee_val h.1, hfloor]
    refine r.quote.div_mono (Int.le_trans (min_le_left _ _) ?_)
    exact Int.mul_le_mul_of_nonneg_right (taxOf_le r.quote share) r.base.lo_le
  · rename_i h
    by_cases hnative : p.quote.isNative
    · have hzero : r.quote.val = 0 := by
        have := r.quote.lo_le
        have : ¬ 0 < r.quote.val := fun hpos => h ⟨hnative, hpos⟩
        omega
      rw [quoteFee_val hnative, hzero, Int.ediv_zero]
    · rw [quoteFee, if_neg fun h => hnative h.1]
      exact Int.le_refl _

theorem fee_le (share : Amount) : (r.fee p share).val ≤ r.feeCap p := by
  rw [fee_val]
  exact Int.le_trans (min_le_left _ _) (Int.add_le_add (baseFee_le share) (quoteFee_le share))

theorem taxOf_of_empty (h : r.totalShare = 0) (reserve share : Amount) :
    r.taxOf reserve share = 0 := by
  rw [taxOf, refundOf, if_pos h]
  decide

theorem baseFee_eq_zero (h : r.totalShare = 0 ∨ p.base.isNative = false) (share : Amount) :
    (r.baseFee p share).val = 0 := by
  rw [baseFee]
  rcases h with hempty | htoken
  · rw [taxOf_of_empty hempty, ite_self, Amount.zero_val]
  · rw [htoken, if_neg Bool.false_ne_true, Amount.zero_val]

theorem quoteFee_eq_zero (h : r.totalShare = 0 ∨ p.quote.isNative = false) (share : Amount) :
    (r.quoteFee p share).val = 0 := by
  by_cases hnative : p.quote.isNative
  · have hempty : r.totalShare = 0 := by simpa [hnative] using h
    rw [quoteFee_val hnative, taxOf_of_empty hempty, Amount.zero_val, Int.zero_mul]
    exact Int.zero_ediv _
  · rw [quoteFee, if_neg fun h => hnative h.1, Amount.zero_val]

theorem fee_eq_zero (h : r.totalShare = 0 ∨ p.base.isNative = false ∧ p.quote.isNative = false)
    (share : Amount) : r.fee p share = 0 := by
  have hbase := baseFee_eq_zero (p := p) (h.imp_right And.left) share
  have hquote := quoteFee_eq_zero (p := p) (h.imp_right And.right) share
  rw [Ranged.ext_iff, fee_val, hbase, hquote]
  decide

/-- The tax is exact for every refund, and the fee for every share whose products
are amounts. For all shares the fee is computed without a fault, rises with the
share, is at most the caps of both sides, and is nothing for an empty pool or two
tokens. -/
theorem fee_exact_monotone_capped (r : Reserves) (p : Pair) :
    (∀ refund : Amount, nativeTax? refund = some (nativeTax refund) ∧
        (nativeTax refund).val = min ⌈(3 * refund.val : ℚ) / 1003⌉ 1000000) ∧
      (∀ share, FeeFits r p share → (r.fee p share).val = r.exactFee p share) ∧
      (∀ share share', share ≤ share' → r.fee p share ≤ r.fee p share') ∧
      (r.totalShare = 0 ∨ p.base.isNative = false ∧ p.quote.isNative = false →
        ∀ share, r.fee p share = 0) ∧
      ∀ share, r.fee? p share = some (r.fee p share) ∧ (r.fee p share).val ≤ r.feeCap p :=
  ⟨fun refund => ⟨nativeTax?_eq refund, nativeTax_val refund⟩, fun _ => fee_exact,
    fun _ _ => fee_mono, fee_eq_zero, fun share => ⟨fee?_eq r p share, fee_le share⟩⟩

def twoCoins : Pair := .unlisted (.native "orai") (.native "uatom") "ORAI" "ATOM"

theorem fee_of_last_share :
    FeeFits ⟨2006, 1003, 100⟩ twoCoins 100 ∧ (50 : Amount) ≤ 100 ∧
      Reserves.fee ⟨2006, 1003, 100⟩ twoCoins 100 = 12 ∧
      Reserves.fee ⟨2006, 1003, 100⟩ twoCoins 50 ≤ 12 ∧
      Reserves.fee ⟨2006, 1003, 0⟩ twoCoins 100 = 0 := by
  have hfits : FeeFits ⟨2006, 1003, 100⟩ twoCoins 100 := by
    constructor <;> decide +kernel
  obtain ⟨-, hexact, hmono, -, -⟩ := fee_exact_monotone_capped ⟨2006, 1003, 100⟩ twoCoins
  obtain ⟨-, -, -, hempty, -⟩ := fee_exact_monotone_capped ⟨2006, 1003, 0⟩ twoCoins
  have hfee : Reserves.fee ⟨2006, 1003, 100⟩ twoCoins 100 = 12 := by
    rw [Ranged.ext_iff, hexact 100 hfits]
    decide +kernel
  exact ⟨hfits, by decide, hfee, hfee ▸ hmono 50 100 (by decide), hempty (Or.inl rfl) 100⟩

end Reserves

end PoolLedger
