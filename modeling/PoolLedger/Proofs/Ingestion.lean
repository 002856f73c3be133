import PoolLedger.Proofs.Reporting
import PoolLedger.Proofs.Runs

/-! Every event once. Under a querier that answers each question always alike, the tables of
events hold what the chain gives up to the checkpoint, in the order of the chain, however often
passes failed or were cut short. -/

namespace PoolLedger

open Asking

namespace Indexer

variable {ix : Indexer} {k : Querier} {chain : Chain} {p : Progress} {s : Store}
  {o next : Height} {x : Extraction} {b : Batch} {swaps : List Swap}
  {liquidity : List LiquidityChange}

structure Kept (ix : Indexer) (k : Querier) (chain : Chain) (o : Height) (swaps : List Swap)
    (liquidity : List LiquidityChange) : Prop where
  swaps : ChainEvent.kept ix k (chain.between ix.initialHeight o) = some swaps
  liquidity : ChainEvent.kept ix k (chain.between ix.initialHeight o) = some liquidity

theorem kept_empty (ix : Indexer) (k : Querier) (chain : Chain) :
    ix.Kept k chain ix.initialHeight [] [] := by
  constructor <;> rw [chain.between_self, ChainEvent.kept_nil]

theorem Kept.after (hk : k.Steady) (h : ix.Kept k chain o swaps liquidity)
    (h₁ : ix.initialHeight ≤ o) (h₂ : o ≤ next)
    (hb : ix.Applies k s (chain.between o next) next x b) :
    ix.Kept k chain next (swaps ++ b.swaps) (liquidity ++ b.liquidity) where
  swaps := ChainEvent.kept_append h₁ h₂ h.swaps (hb.derives hk).swaps
  liquidity := ChainEvent.kept_append h₁ h₂ h.liquidity (hb.derives hk).liquidity

/-- The tables of swaps and of liquidity hold, in the order of writing, the events of the chain
from the initial height up to the checkpoint, the last one reported under each key, at the
starts of their buckets. -/
theorem events_stored_exactly_once (hk : k.Steady)
    (h : ix.Follows (fun _ k' => k' = k) chain p s) :
    ∃ c swaps liquidity, ix.start s = .ok c ∧
      bucketed? ix.bucketWidth (keepLast (Extraction.ofAll ix.registry k
        (chain.between ix.initialHeight c)).swaps) = some swaps ∧
      s.swaps = swaps.map Record.stored ∧
      bucketed? ix.bucketWidth (keepLast (Extraction.ofAll ix.registry k
        (chain.between ix.initialHeight c)).liquidity) = some liquidity ∧
      s.liquidity = liquidity.map Record.stored := by
  obtain ⟨c, swaps, liquidity, hs, hkept, -⟩ :=
    h.invariant (P := fun o _ => ix.Kept k chain o) (kept_empty ix k chain) <| by
      rintro o next s swaps liquidity k x b hs hkept hlt rfl hb
      exact hkept.after hk hs.initial_le (Int.le_of_lt hlt) hb
  exact ⟨c, swaps, liquidity, hs.start, hkept.swaps, hs.swapTable.rows_eq, hkept.liquidity,
    hs.liquidityTable.rows_eq⟩

end Indexer

namespace TwoSwaps

open Sample

def chain : Chain := ⟨[firstSwap, secondSwap], by decide⟩

theorem sameTimes : chain.SameTimes := by
  unfold Chain.SameTimes
  decide

def afterFirst : Store where
  swaps := [[.text "A", .text "orai", .integer 1, .text "usdt", .integer 2, .integer 0,
    .integer 0, .integer 0, .text "Sell", .text "pool", .text "orai-usdt", .text "trader",
    .integer 110, .integer 0, .integer 0, .integer 60, .text "110-orai-1-usdt-2"]]
  liquidity := []
  snapshots := [[.text "pool", .integer 11, .integer 18, .integer 5, .integer 110, .integer 60,
    .text "60-pool"]]
  candles := [[.text "orai-usdt", .integer 60, .real 0.5, .real 0.5, .real 0.5, .real 0.5,
    .integer 1, .integer 1, .text "60-orai-usdt"]]
  aprs := []
  pairs := []
  checkpoint := some 120

def afterSecond : Store where
  swaps := afterFirst.swaps ++ [[.text "A", .text "orai", .integer 1, .text "usdt", .integer 2,
    .integer 0, .integer 0, .integer 0, .text "Sell", .text "pool", .text "orai-usdt",
    .text "trader", .integer 130, .integer 0, .integer 0, .integer 120,
    .text "130-orai-1-usdt-2"]]
  liquidity := []
  snapshots := afterFirst.snapshots ++ [[.text "pool", .integer 12, .integer 16, .integer 5,
    .integer 130, .integer 120, .text "120-pool"]]
  candles := afterFirst.candles ++ [[.text "orai-usdt", .integer 120, .real 0.5, .real 0.5,
    .real 0.5, .real 0.5, .integer 1, .integer 1, .text "120-orai-usdt"]]
  aprs := []
  pairs := []
  checkpoint := some 140

theorem takeIn?_first {s : Store} (hs : s = .empty ∨ s = afterFirst) :
    Indexer.takeIn? s 100 (value querier (indexer.derive s [firstSwap] 120
      (Extraction.ofAll indexer.registry querier [firstSwap]))) =
        some (⟨100, 120, 1, 1, 0, 0, 1, 1, 0, 0⟩, afterFirst) := by
  have hevents : Extraction.ofAll indexer.registry querier [firstSwap] = _ :=
    Extraction.ofAll_written rfl (readExecutions_execution "swap" (by simp)) rfl
  rw [hevents]
  rcases hs with rfl | rfl <;> decide +kernel

theorem takeIn?_second {k : Querier} (hk : k = querier ∨ k = .silent) :
    Indexer.takeIn? afterFirst 120 (value k (indexer.derive afterFirst [secondSwap] 140
      (Extraction.ofAll indexer.registry k [secondSwap]))) =
        some (⟨120, 140, 1, 1, 0, 0, 1, 1, 0, 0⟩, afterSecond) := by
  have hevents : Extraction.ofAll indexer.registry k [secondSwap] = _ :=
    Extraction.ofAll_written rfl (readExecutions_execution "swap" (by simp)) rfl
  rw [hevents]
  rcases hk with rfl | rfl <;> decide +kernel

variable {K : Segment → Querier → Prop}

theorem follows_first (kind : K ⟨[firstSwap], 120⟩ querier) :
    indexer.Follows K chain ⟨some 120, .persisting⟩ afterFirst := by
  have hfailed : indexer.Follows K chain ⟨some 100, .fetching⟩ .empty :=
    .unapplied .opened (fun _ => .error (.chain "unreachable")) querier [] nofun
  exact .refused (hfailed.take rfl (chain.upTo_honest 120) rfl (by decide) steady kind
    (takeIn?_first (.inl rfl))) (by decide +kernel)

theorem follows_second (kind : K ⟨[firstSwap], 120⟩ querier) {k : Querier}
    (hk : k = querier ∨ k = .silent) (kind' : K ⟨[secondSwap], 140⟩ k) :
    indexer.Follows K chain .new afterSecond := by
  have hsteady : k.Steady := by
    rcases hk with rfl | rfl
    · exact steady
    · exact Querier.silent_steady
  exact (follows_first kind).take rfl (chain.upTo_honest 140) rfl (by decide) hsteady kind'
    (takeIn?_second hk)

end TwoSwaps

namespace Indexer

open Sample TwoSwaps

theorem swaps_stored_exactly_once :
    afterSecond.swaps.length = 2 ∧ ∃ c swaps liquidity, indexer.start afterSecond = .ok c ∧
      bucketed? indexer.bucketWidth (keepLast (Extraction.ofAll indexer.registry querier
        (chain.between indexer.initialHeight c)).swaps) = some swaps ∧
      afterSecond.swaps = swaps.map Record.stored ∧
      bucketed? indexer.bucketWidth (keepLast (Extraction.ofAll indexer.registry querier
        (chain.between indexer.initialHeight c)).liquidity) = some liquidity ∧
      afterSecond.liquidity = liquidity.map Record.stored :=
  ⟨rfl, events_stored_exactly_once steady
    (follows_second rfl (.inl rfl) rfl : indexer.Follows (fun _ k => k = querier) _ _ _)⟩

end Indexer

end PoolLedger
