import Mathlib.Data.Rat.Floor
import PoolLedger.Proofs.Arithmetic
import PoolLedger.Proofs.History
import PoolLedger.Proofs.Movements

/-! Rounding of the total share. It follows the base reserve in proportion, and
the fraction is dropped. Withdrawing leaves a share between none and the one
before, providing adds at most the exact proportion, and what was provided and
is withdrawn at once leaves the share as it was, provided that the sums on the
way are running values: a sum that stops at its bound loses what it stopped at. -/

namespace PoolLedger

open Movement (IsBalance)
open PoolChange (ofPool inChainOrder)

namespace Balance

theorem isBalance (a : Balance) : IsBalance a.val := ⟨a.lo_le, a.le_hi⟩

theorem pull_val_eq {a : Balance} {n : Int} (h : IsBalance n) : (a.pull n).val = n := by
  obtain ⟨hlo, hhi⟩ := h
  rw [Ranged.pull_val]
  omega

theorem quot_val (a : Balance) {b : Balance} (hb : 0 < b.val) :
    (a.quot b).val = a.val.tdiv b.val :=
  Ranged.ofInt?_eq_some_iff.1 ((if_neg (by omega)).symm.trans (Balance.checkedQuot_eq (a := a) hb))

theorem satAdd_satAdd {a d d' : Balance} (h : IsBalance (a.val + d.val)) (hd : d'.val = -d.val) :
    (a.satAdd d).satAdd d' = a := by
  have := a.lo_le
  have := a.le_hi
  obtain ⟨hlo, hhi⟩ := h
  apply Ranged.ext
  simp only [Ranged.satAdd, Ranged.pull_val]
  omega

end Balance

def proportionalShare (total base delta : Int) : Int := total + (total * delta).tdiv base

namespace proportionalShare

variable {total base amount : Int}

theorem provide_bounds (hT : 0 ≤ total) (hO : 0 < base) (hb : 0 ≤ amount) :
    total ≤ proportionalShare total base amount ∧
      (proportionalShare total base amount : ℚ) ≤ total + total * amount / base := by
  have hnonneg : 0 ≤ total * amount := Int.mul_nonneg hT hb
  rw [proportionalShare, Int.tdiv_eq_ediv_of_nonneg hnonneg]
  have hquot : 0 ≤ total * amount / base := Int.ediv_nonneg hnonneg hO.le
  have hfloor : ((total * amount / base : Int) : ℚ) ≤ total * amount / base := by
    rw [le_div_iff₀ (Int.cast_pos.2 hO)]
    exact_mod_cast Int.ediv_mul_le (total * amount) hO.ne'
  refine ⟨by omega, ?_⟩
  rw [Int.cast_add]
  exact add_le_add_right hfloor _

theorem withdraw_eq (hT : 0 ≤ total) (hb : 0 ≤ amount) :
    proportionalShare total base (-amount) = total - total * amount / base := by
  rw [proportionalShare, Int.mul_neg, Int.neg_tdiv,
    Int.tdiv_eq_ediv_of_nonneg (Int.mul_nonneg hT hb), Int.sub_eq_add_neg]

theorem withdraw_bounds (hT : 0 ≤ total) (hO : 0 < base) (hb : 0 ≤ amount) (hle : amount ≤ base) :
    0 ≤ proportionalShare total base (-amount) ∧
      proportionalShare total base (-amount) ≤ total := by
  have hquot : total * amount / base ≤ total :=
    Int.ediv_le_of_le_mul hO (Int.mul_le_mul_of_nonneg_left hle hT)
  have hnonneg : 0 ≤ total * amount / base := Int.ediv_nonneg (Int.mul_nonneg hT hb) hO.le
  rw [withdraw_eq hT hb]
  omega

theorem withdraw_all (hT : 0 ≤ total) (hO : 0 < base) :
    proportionalShare total base (-base) = 0 := by
  rw [withdraw_eq hT hO.le, Int.mul_ediv_cancel _ hO.ne']
  exact Int.sub_self _

theorem round_trip (total : Int) (hO : 0 < base) (hb : 0 ≤ amount) :
    (total + total * amount / base) * amount / (base + amount) = total * amount / base := by
  have hsplit : (total + total * amount / base) * amount =
      total * amount % base + (base + amount) * (total * amount / base) := by
    have := Int.emod_add_mul_ediv (total * amount) base
    linarith
  have hlo := Int.emod_nonneg (total * amount) hO.ne'
  have hhi := Int.emod_lt_of_pos (total * amount) hO
  rw [hsplit, Int.add_mul_ediv_left _ _ (by omega), Int.ediv_eq_zero_of_lt hlo (by omega),
    Int.zero_add]

theorem round_trip_capped {cap : Int} (hcap : 1 < cap) (hT : 0 ≤ total) (hO : 0 < base)
    (hle : base ≤ cap) (hb : 0 ≤ amount)
    (hfit : (total + total * amount / base) * amount ≤ cap + 1) :
    (total + total * amount / base) * amount / min (base + amount) cap =
      total * amount / base := by
  have htrip := round_trip total hO hb
  have hnonneg : 0 ≤ total * amount := Int.mul_nonneg hT hb
  rcases le_or_gt (base + amount) cap with hfits | hover
  · rw [min_eq_left hfits, htrip]
  rw [min_eq_right hover.le]
  rcases lt_or_ge ((total + total * amount / base) * amount) (base + amount) with hlt | hge
  · have hpos : 0 ≤ (total + total * amount / base) * amount :=
      Int.mul_nonneg (Int.add_nonneg hT (Int.ediv_nonneg hnonneg hO.le)) hb
    -- nothing was added, so the product is what it was, and below the reserve
    have hzero : total * amount / base = 0 := by
      rw [← htrip, Int.ediv_eq_zero_of_lt hpos hlt]
    have hsmall := Int.lt_ediv_add_one_mul_self (total * amount) hO
    rw [hzero, Int.zero_add, Int.one_mul] at hsmall
    rw [hzero, Int.add_zero, Int.ediv_eq_zero_of_lt hnonneg (by omega)]
  · -- the product is just above the bound, and so is the sum that stopped
    have hproduct : (total + total * amount / base) * amount = cap + 1 := by omega
    have hsum : base + amount = cap + 1 := by omega
    have hone : total * amount / base = 1 := by
      rw [← htrip, hproduct, hsum, Int.ediv_self (by omega)]
    rw [hproduct, hone]
    exact ((Int.ediv_emod_unique (by omega)).2 ⟨by omega, Int.one_nonneg, hcap⟩).1

end proportionalShare

namespace LiquidityChange

structure Undone (e e' : LiquidityChange) : Prop where
  provide : e.op = .provide
  withdraw : e'.op = .withdraw
  base : e'.baseAmount = e.baseAmount
  quote : e'.quoteAmount = e.quoteAmount

variable {e e' : LiquidityChange}

theorem neg_toBalance_val (a : Amount) : (Balance.neg a.toBalance).val = -a.toBalance.val := by
  have := a.toBalance_nonneg
  have := a.toBalance.le_hi
  rw [Balance.neg, Ranged.pull_val]
  omega

theorem delta_provide (h : e.op = .provide) :
    e.delta = ⟨e.baseAmount.toBalance, e.quoteAmount.toBalance⟩ := by
  rw [delta, h]

theorem delta_withdraw (h : e.op = .withdraw) :
    e.delta = ⟨Balance.neg e.baseAmount.toBalance, Balance.neg e.quoteAmount.toBalance⟩ := by
  rw [delta, h]

theorem Undone.delta (h : Undone e e') :
    e'.delta.base.val = -e.delta.base.val ∧ e'.delta.quote.val = -e.delta.quote.val := by
  rw [delta_withdraw h.withdraw, delta_provide h.provide, h.base, h.quote]
  exact ⟨neg_toBalance_val _, neg_toBalance_val _⟩

end LiquidityChange

namespace PoolState

variable {s : PoolState} {e e' : LiquidityChange}

def ProductFits (s : PoolState) (e : LiquidityChange) : Prop :=
  IsBalance (s.totalShare.val * e.delta.base.val)

def nextShare (s : PoolState) (e : LiquidityChange) : Int :=
  proportionalShare s.totalShare.val s.base.val e.delta.base.val

/-- Both reserves and the total share after a change are running values. -/
structure SumsFit (s : PoolState) (e : LiquidityChange) : Prop where
  base : IsBalance (s.base.val + e.delta.base.val)
  quote : IsBalance (s.quote.val + e.delta.quote.val)
  share : IsBalance (s.nextShare e)

theorem totalShare_apply (hT : 0 < s.totalShare.val) (hO : 0 < s.base.val) (h : s.ProductFits e) :
    (s.apply (.liquidity e)).totalShare = s.totalShare.pull (s.nextShare e) := by
  have hshare : (s.apply (.liquidity e)).totalShare =
      e.nextTotalShare s.totalShare s.base e.delta.base := rfl
  rw [hshare, LiquidityChange.nextTotalShare, if_pos ⟨hT, hO⟩, Ranged.satAdd,
    Balance.quot_val _ hO, Ranged.satMul, Balance.pull_val_eq h]
  rfl

theorem base_undone (h : e.Undone e') (hfits : IsBalance (s.base.val + e.delta.base.val)) :
    (s.after [.liquidity e, .liquidity e']).base = s.base :=
  Balance.satAdd_satAdd hfits h.delta.1

theorem quote_undone (h : e.Undone e') (hfits : IsBalance (s.quote.val + e.delta.quote.val)) :
    (s.after [.liquidity e, .liquidity e']).quote = s.quote :=
  Balance.satAdd_satAdd hfits h.delta.2

theorem totalShare_undone (hT : 0 < s.totalShare.val) (hO : 0 < s.base.val) (h : e.Undone e')
    (hproduct : s.ProductFits e) (hproduct' : (s.apply (.liquidity e)).ProductFits e')
    (hfits : IsBalance (s.nextShare e)) :
    (s.after [.liquidity e, .liquidity e']).totalShare = s.totalShare := by
  have hb : 0 ≤ e.delta.base.val := by
    rw [LiquidityChange.delta_provide h.provide]
    exact e.baseAmount.toBalance_nonneg
  have hquot : 0 ≤ s.totalShare.val * e.delta.base.val / s.base.val :=
    Int.ediv_nonneg (Int.mul_nonneg hT.le hb) hO.le
  have hshare : (s.apply (.liquidity e)).totalShare.val =
      s.totalShare.val + s.totalShare.val * e.delta.base.val / s.base.val := by
    rw [totalShare_apply hT hO hproduct, Balance.pull_val_eq hfits, nextShare, proportionalShare,
      Int.tdiv_eq_ediv_of_nonneg (Int.mul_nonneg hT.le hb)]
  have hbase : (s.apply (.liquidity e)).base.val =
      min (s.base.val + e.delta.base.val) 170141183460469231731687303715884105727 := by
    have happly : (s.apply (.liquidity e)).base = s.base.satAdd e.delta.base := rfl
    rw [happly, Ranged.satAdd, Ranged.pull_val]
    omega
  have hback : (s.apply (.liquidity e)).nextShare e' = s.totalShare.val := by
    obtain ⟨hlo, -⟩ := hproduct'
    rw [hshare, h.delta.1, Int.mul_neg] at hlo
    rw [nextShare, h.delta.1, proportionalShare.withdraw_eq (by omega) hb, hshare, hbase,
      proportionalShare.round_trip_capped (by decide) hT.le hO s.base.le_hi hb (by omega)]
    omega
  have happly : s.after [.liquidity e, .liquidity e'] =
      (s.apply (.liquidity e)).apply (.liquidity e') := rfl
  rw [happly, totalShare_apply (by omega) (by omega) hproduct', hback]
  exact Ranged.ext (Balance.pull_val_eq s.totalShare.isBalance)

theorem withdraw_bounds (hT : 0 < s.totalShare.val) (hO : 0 < s.base.val) (h : e.op = .withdraw)
    (hproduct : s.ProductFits e) (hle : e.baseAmount.val ≤ s.base.val) :
    0 ≤ (s.apply (.liquidity e)).totalShare.val ∧
      (s.apply (.liquidity e)).totalShare ≤ s.totalShare ∧
      (e.baseAmount.val = s.base.val → (s.apply (.liquidity e)).totalShare.val = 0) := by
  have hlo := e.baseAmount.lo_le
  have hhi := s.base.le_hi
  have hamount : e.delta.base.val = -e.baseAmount.val := by
    rw [LiquidityChange.delta_withdraw h]
    exact (Amount.toBalance_val ⟨by omega, by omega⟩).2
  have hnext : s.nextShare e =
      proportionalShare s.totalShare.val s.base.val (-e.baseAmount.val) := by
    rw [nextShare, hamount]
  obtain ⟨hnonneg, hle'⟩ := proportionalShare.withdraw_bounds hT.le hO hlo hle
  have hfits : IsBalance (s.nextShare e) := by
    have := s.totalShare.le_hi
    constructor <;> omega
  rw [Ranged.le_def, totalShare_apply hT hO hproduct, Balance.pull_val_eq hfits, hnext]
  refine ⟨hnonneg, hle', fun hall => ?_⟩
  rw [hall, proportionalShare.withdraw_all hT.le hO]

theorem provide_bounds (hT : 0 < s.totalShare.val) (hO : 0 < s.base.val) (h : e.op = .provide)
    (hproduct : s.ProductFits e) :
    s.totalShare ≤ (s.apply (.liquidity e)).totalShare ∧
      ((s.apply (.liquidity e)).totalShare.val : ℚ) ≤
        s.totalShare.val + s.totalShare.val * e.baseAmount.val / s.base.val := by
  have hb := e.baseAmount.toBalance_nonneg
  have hle : e.baseAmount.toBalance.val ≤ e.baseAmount.val := by
    have := e.baseAmount.lo_le
    rw [Amount.toBalance, Ranged.pull_val]
    omega
  have hnext : s.nextShare e =
      proportionalShare s.totalShare.val s.base.val e.baseAmount.toBalance.val := by
    rw [nextShare, LiquidityChange.delta_provide h]
  obtain ⟨hlo, hhi⟩ := proportionalShare.provide_bounds hT.le hO hb
  have hpull : (s.apply (.liquidity e)).totalShare.val =
      min (s.nextShare e) 170141183460469231731687303715884105727 := by
    have := s.totalShare.lo_le
    rw [totalShare_apply hT hO hproduct, Ranged.pull_val]
    omega
  rw [Ranged.le_def, hpull, hnext]
  refine ⟨le_min hlo s.totalShare.le_hi, ?_⟩
  calc ((min (proportionalShare s.totalShare.val s.base.val e.baseAmount.toBalance.val)
        170141183460469231731687303715884105727 : Int) : ℚ)
      ≤ proportionalShare s.totalShare.val s.base.val e.baseAmount.toBalance.val :=
        Int.cast_le.2 (min_le_left _ _)
    _ ≤ s.totalShare.val + s.totalShare.val * e.baseAmount.toBalance.val / s.base.val := hhi
    _ ≤ s.totalShare.val + s.totalShare.val * e.baseAmount.val / s.base.val := by
        gcongr

theorem mem_lastPerTime_history (address : String) (before later : List PoolChange)
    (c : PoolChange) (h : ∀ d ∈ later, d.timestamp ≠ c.timestamp) :
    Snapshot.of address (s.after (before ++ [c])).base (s.after (before ++ [c])).quote
        (s.after (before ++ [c])).totalShare c.position.height c.timestamp ∈
      Snapshot.lastPerTime (s.history address (before ++ c :: later)) := by
  rw [List.append_cons, history_append, Snapshot.mem_lastPerTime_append]
  refine Or.inr ⟨Snapshot.getLast_mem_lastPerTime ?_, fun y hy => ?_⟩
  · rw [history_concat, List.getLast?_concat]
  · obtain ⟨-, -, d, hd, -, ht⟩ := mem_history hy
    rw [ht]
    exact h d hd

theorem mem_accumulate_undone {r : Registry} {seeds : Seeds} {swaps : List Swap}
    {liquidity : List LiquidityChange} {address : String} {before later : List PoolChange}
    (hp : (r.byAddress? address).isSome)
    (hchanges : inChainOrder (ofPool swaps liquidity address) =
      before ++ .liquidity e :: .liquidity e' :: later)
    (hs : (seeds.state address).after before = s)
    (hback : s.after [.liquidity e, .liquidity e'] = s)
    (hlater : ∀ c ∈ later, c.timestamp ≠ e'.timestamp) :
    Snapshot.of address s.base s.quote s.totalShare e'.height e'.timestamp ∈
      Snapshot.accumulate r seeds swaps liquidity := by
  rw [Snapshot.mem_accumulate]
  refine ⟨address, hp, ?_⟩
  have hmem := mem_lastPerTime_history (s := seeds.state address) address
    (before ++ [.liquidity e]) later (.liquidity e') hlater
  have hafter : (seeds.state address).after
      (before ++ [.liquidity e] ++ [.liquidity e']) = s := by
    rw [List.append_assoc, after_append, hs]
    exact hback
  rw [hafter, List.append_assoc] at hmem
  rw [Snapshot.ofPool_eq, hchanges]
  exact hmem

/-- Against a pool with a base reserve and a share, as long as the products are
running values: withdrawing leaves a share between none and the one before, none
when the whole reserve goes; providing adds at most the exact proportion. What is
provided and withdrawn at once comes back as it was, a reserve if its sum, and the
share if the share in between, is a running value, and so the snapshots tell. -/
theorem share_follows_reserve (s : PoolState) (hT : 0 < s.totalShare.val) (hO : 0 < s.base.val) :
    (∀ e, e.op = .withdraw → s.ProductFits e → e.baseAmount.val ≤ s.base.val →
        0 ≤ (s.apply (.liquidity e)).totalShare.val ∧
          (s.apply (.liquidity e)).totalShare ≤ s.totalShare ∧
          (e.baseAmount.val = s.base.val → (s.apply (.liquidity e)).totalShare.val = 0)) ∧
      (∀ e, e.op = .provide → s.ProductFits e →
        s.totalShare ≤ (s.apply (.liquidity e)).totalShare ∧
          ((s.apply (.liquidity e)).totalShare.val : ℚ) ≤
            s.totalShare.val + s.totalShare.val * e.baseAmount.val / s.base.val) ∧
      (∀ e e', e.Undone e' → s.ProductFits e → (s.apply (.liquidity e)).ProductFits e' →
        (IsBalance (s.base.val + e.delta.base.val) →
            (s.after [.liquidity e, .liquidity e']).base = s.base) ∧
          (IsBalance (s.quote.val + e.delta.quote.val) →
            (s.after [.liquidity e, .liquidity e']).quote = s.quote) ∧
          (IsBalance (s.nextShare e) →
            (s.after [.liquidity e, .liquidity e']).totalShare = s.totalShare)) ∧
      ∀ r seeds swaps liquidity address before later e e', (r.byAddress? address).isSome →
        inChainOrder (ofPool swaps liquidity address) =
          before ++ .liquidity e :: .liquidity e' :: later →
        (Seeds.state seeds address).after before = s →
        (∀ c ∈ later, c.timestamp ≠ e'.timestamp) →
        e.Undone e' → s.ProductFits e → (s.apply (.liquidity e)).ProductFits e' →
        s.SumsFit e →
        Snapshot.of address s.base s.quote s.totalShare e'.height e'.timestamp ∈
          Snapshot.accumulate r seeds swaps liquidity := by
  refine ⟨fun e h hproduct hle => withdraw_bounds hT hO h hproduct hle,
    fun e h hproduct => provide_bounds hT hO h hproduct,
    fun e e' h hproduct hproduct' => ⟨base_undone h, quote_undone h,
      totalShare_undone hT hO h hproduct hproduct'⟩, ?_⟩
  intro r seeds swaps liquidity address before later e e' hp hchanges hs hlater h hproduct
    hproduct' hfits
  refine mem_accumulate_undone hp hchanges hs ?_ hlater
  have hbase := base_undone h hfits.base
  have hquote := quote_undone h hfits.quote
  have hshare := totalShare_undone hT hO h hproduct hproduct' hfits.share
  generalize s.after [.liquidity e, .liquidity e'] = back at hbase hquote hshare
  cases back
  cases s
  rw [PoolState.mk.injEq]
  exact ⟨hbase, hquote, hshare⟩

end PoolState

namespace OneCoin

def liquidityOf (op : LiquidityOp) (amount : Amount) (height : Height) : LiquidityChange where
  txHash := "A"
  baseDenom := "orai"
  baseAmount := amount
  quoteDenom := "usdt"
  quoteAmount := 3
  baseReserve := 0
  quoteReserve := 0
  basePrice := 0
  op := op
  protocolFee := 0
  share := 1
  creator := "trader"
  pairAddress := "pool"
  height := height
  txIndex := 0
  msgIndex := 0
  timestamp := 60
  uniqueKey := ""

theorem undone (amount : Amount) (height height' : Height) :
    (liquidityOf .provide amount height).Undone (liquidityOf .withdraw amount height') :=
  ⟨rfl, rfl, rfl, rfl⟩

end OneCoin

namespace PoolState

open OneCoin (liquidityOf)

/-- Where a share that would double stops at its bound, taking it back halves it. -/
theorem share_lost_at_bound :
    let s : PoolState := ⟨1, 5, 170141183460469231731687303715884105727⟩
    let e := liquidityOf .provide 1 10
    let e' := liquidityOf .withdraw 1 11
    0 < s.totalShare.val ∧ 0 < s.base.val ∧ e.Undone e' ∧ s.ProductFits e ∧
      (s.apply (.liquidity e)).ProductFits e' ∧
      (s.after [.liquidity e, .liquidity e']).totalShare.val =
        85070591730234615865843651857942052864 ∧
      (s.after [.liquidity e, .liquidity e']).totalShare < s.totalShare := by
  refine ⟨by decide, by decide, OneCoin.undone 1 10 11, ?_, ?_, by decide +kernel,
    by decide +kernel⟩ <;>
  · constructor <;> decide +kernel

theorem share_follows_three_coins :
    let s : PoolState := ⟨3, 5, 10⟩
    (s.apply (.liquidity (liquidityOf .withdraw 3 10))).totalShare.val = 0 ∧
      s.totalShare ≤ (s.apply (.liquidity (liquidityOf .provide 2 10))).totalShare ∧
      (s.after [.liquidity (liquidityOf .provide 2 10),
        .liquidity (liquidityOf .withdraw 2 11)]).totalShare = s.totalShare ∧
      Snapshot.of "pool" 3 5 10 11 60 ∈
        Snapshot.accumulate Sample.indexer.registry [("pool", .of "pool" 3 5 10 9 0)] []
          [liquidityOf .provide 2 10, liquidityOf .withdraw 2 11] := by
  intro s
  have hproduct : s.ProductFits (liquidityOf .provide 2 10) := by
    constructor <;> decide +kernel
  have hproduct' : (s.apply (.liquidity (liquidityOf .provide 2 10))).ProductFits
      (liquidityOf .withdraw 2 11) := by
    constructor <;> decide +kernel
  have hall : s.ProductFits (liquidityOf .withdraw 3 10) := by
    constructor <;> decide +kernel
  have hfits : s.SumsFit (liquidityOf .provide 2 10) := by
    refine ⟨?_, ?_, ?_⟩ <;>
    · constructor <;> decide +kernel
  obtain ⟨hwithdraw, hprovide, htrip, haccumulate⟩ := share_follows_reserve s (by decide) (by decide)
  obtain ⟨-, -, hnone⟩ := hwithdraw _ rfl hall (by decide)
  obtain ⟨hgrow, -⟩ := hprovide _ rfl hproduct
  obtain ⟨-, -, hback⟩ := htrip _ _ (OneCoin.undone 2 10 11) hproduct hproduct'
  have hchanges : inChainOrder (ofPool [] [liquidityOf .provide 2 10, liquidityOf .withdraw 2 11]
      "pool") = [.liquidity (liquidityOf .provide 2 10), .liquidity (liquidityOf .withdraw 2 11)] :=
    List.mergeSort_of_pairwise (by decide +kernel)
  exact ⟨hnone (by decide), hgrow, hback hfits.share,
    haccumulate Sample.indexer.registry [("pool", .of "pool" 3 5 10 9 0)] [] _ "pool" [] [] _ _
      (by decide) hchanges (by decide) (by simp) (OneCoin.undone 2 10 11) hproduct hproduct' hfits⟩

end PoolState

end PoolLedger
