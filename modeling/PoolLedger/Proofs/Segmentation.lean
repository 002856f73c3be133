import PoolLedger.Proofs.CandleTable
import PoolLedger.Proofs.Ingestion
import PoolLedger.Proofs.RunningReserves

/-! Segments do not matter. The tables of reserves and of candles are those of the whole chain
up to the checkpoint, wherever it was cut. -/

namespace PoolLedger

namespace Indexer

variable {ix : Indexer} {k : Querier} {chain : Chain} {s s' : Store} {o next : Height}
  {x : Extraction} {b : Batch} {p : Progress} {swaps : List Swap}
  {liquidity : List LiquidityChange}

section Candles

variable (h : ix.Holds chain o s swaps liquidity)
  (hb : ix.Applies k s (chain.between o next) next x b)
include h hb

theorem Holds.built :
    Candle.build? (Candle.inBucketsOf swaps b.swaps ++ b.swaps) = some b.candles := by
  -- the stored swaps lie below the segment, so none of the new ones is among them
  have hadd : Candle.unstored swaps b.swaps = b.swaps := by
    rw [Candle.unstored, List.filter_eq_self]
    intro n hn
    simp only [Bool.not_eq_true', List.any_eq_false, decide_eq_true_eq]
    intro y hy
    exact ChainEvent.uniqueKey_ne_of_within (h.swapTable.within y (Candle.mem_inBucketsOf.1 hy).1)
      (hb.swaps_within n hn)
  exact (rebuildCandles_ok h.swapTable.rows_eq h.swapTable.fits hadd).1 hb.settled.candles

theorem Holds.ofBucket_new {y : Swap} (hy : y ∈ b.swaps) :
    ∃ c, Candle.ofBucket? (swaps ++ b.swaps) y.bucket = some [c] := by
  have hbuild := h.built hb
  obtain ⟨l, hl⟩ := (Candle.build?_eq_some hbuild).1 y (List.mem_append_right _ hy)
  rw [ofBucket?_rebuilt ⟨y, hy, rfl⟩] at hl
  obtain ⟨c, rfl⟩ := Candle.exists_of_bucket hl ⟨y, List.mem_append_right _ hy, rfl⟩
  exact ⟨c, hl⟩

theorem Holds.candleTable_after (ht : CandleTable swaps s.candles) :
    CandleTable (swaps ++ b.swaps) (s.after b).candles :=
  ht.insert (fun _ hx => hx) (fun _ hy => h.ofBucket_new hb hy)
    fun _ => mem_rebuilt (fun _ hx => hx) (h.built hb)

end Candles

theorem Started.eq_of_steady (hk : k.Steady) {pair : Pair} {address : String}
    {changes : List PoolChange} {start start' : PoolState} (hne : changes ≠ [])
    (h : Started (fun _ k' => k' = k) pair address changes start)
    (h' : Started (fun _ k' => k' = k) pair address changes start') : start = start' := by
  obtain ⟨first, hfirst⟩ := PoolChange.exists_leastHeight hne
  obtain ⟨_, _, asked, rfl, -, rfl⟩ := h first hfirst
  obtain ⟨_, _, asked', rfl, -, rfl⟩ := h' first hfirst
  rw [hk.reservesTold_eq, hk.reservesTold_eq]

theorem Recounts.subset (hk : k.Steady)
    (h : ix.Recounts (fun _ k' => k' = k) s swaps liquidity)
    (h' : ix.Recounts (fun _ k' => k' = k) s' swaps liquidity) : s.snapshots ⊆ s'.snapshots := by
  intro row hrow
  obtain ⟨address, hregistered, htext⟩ := h.owned row hrow
  obtain ⟨pair, hp⟩ := Option.isSome_iff_exists.1 hregistered
  obtain ⟨start, hstart, ht⟩ := h.pools address pair hp
  obtain ⟨start', hstart', ht'⟩ := h'.pools address pair hp
  obtain ⟨y, hy, rfl⟩ := (ht.mem_iff row).1 ⟨hrow, htext⟩
  obtain ⟨-, -, c, hc, -⟩ := PoolState.mem_history (Snapshot.mem_of_mem_lastPerTime hy)
  obtain rfl := hstart.eq_of_steady hk (List.ne_nil_of_mem (PoolChange.mem_inChainOrder.1 hc)) hstart'
  exact ((ht'.mem_iff _).2 ⟨y, hy, rfl⟩).1

theorem Follows.derived (hk : k.Steady) (hsame : chain.SameTimes)
    (h : ix.Follows (fun _ k' => k' = k) chain p s) :
    ∃ o swaps liquidity, ix.start s = .ok o ∧ ix.Kept k chain o swaps liquidity ∧
      ix.Recounts (fun _ k' => k' = k) s swaps liquidity ∧ CandleTable swaps s.candles := by
  obtain ⟨o, swaps, liquidity, hs, htables, -⟩ :=
    h.invariant (P := fun o s swaps liquidity => ix.Kept k chain o swaps liquidity ∧
      ix.Recounts (fun _ k' => k' = k) s swaps liquidity ∧ CandleTable swaps s.candles)
      ⟨kept_empty ix k chain, recounts_empty ix _, .empty⟩ <| by
      rintro o next s swaps liquidity k x b hs ⟨hkept, hr, hc⟩ hlt rfl hb
      exact ⟨hkept.after hk hs.initial_le (Int.le_of_lt hlt) hb, hr.after hs hb hsame rfl,
        hs.candleTable_after hb hc⟩
  exact ⟨o, swaps, liquidity, hs.start, htables⟩

/-- Two indexers that follow a chain up to one height hold the same reserves and
the same candles, however the chain was cut for each. -/
theorem derived_tables_independent_of_segments (hk : k.Steady) (hsame : chain.SameTimes)
    {p₁ p₂ : Progress} {s₁ s₂ : Store} {c : Height}
    (h₁ : ix.Follows (fun _ k' => k' = k) chain p₁ s₁)
    (h₂ : ix.Follows (fun _ k' => k' = k) chain p₂ s₂) (hc₁ : ix.start s₁ = .ok c)
    (hc₂ : ix.start s₂ = .ok c) :
    (∀ row, row ∈ s₁.snapshots ↔ row ∈ s₂.snapshots) ∧
      ∀ row, row ∈ s₁.candles ↔ row ∈ s₂.candles := by
  obtain ⟨o₁, swaps, liquidity, hstart₁, hkept₁, hr₁, hcs₁⟩ := h₁.derived hk hsame
  obtain ⟨o₂, swaps', liquidity', hstart₂, hkept₂, hr₂, hcs₂⟩ := h₂.derived hk hsame
  obtain rfl : o₁ = c := Except.ok.inj (hstart₁.symm.trans hc₁)
  obtain rfl : o₂ = o₁ := Except.ok.inj (hstart₂.symm.trans hc₂)
  obtain rfl := Option.some.inj (hkept₁.swaps.symm.trans hkept₂.swaps)
  obtain rfl := Option.some.inj (hkept₁.liquidity.symm.trans hkept₂.liquidity)
  refine ⟨fun row => ⟨fun hrow => hr₁.subset hk hr₂ hrow, fun hrow => hr₂.subset hk hr₁ hrow⟩,
    fun row => ?_⟩
  rw [hcs₁ row, hcs₂ row]

open Sample TwoSwaps in
theorem two_segments_or_three :
    let between := (indexer.passFrom (TwoSwaps.chain.upTo 125) 120 afterFirst querier []).1.store
    let inThree := (indexer.passFrom (TwoSwaps.chain.upTo 140) 125 between querier []).1.store
    (∀ row, row ∈ afterSecond.snapshots ↔ row ∈ inThree.snapshots) ∧
      ∀ row, row ∈ afterSecond.candles ↔ row ∈ inThree.candles := by
  intro between inThree
  have hnothing : takeIn? afterFirst 120 (Asking.value querier (indexer.derive afterFirst [] 125
      (Extraction.ofAll indexer.registry querier []))) = some (⟨120, 125, 0, 0, 0, 0, 0, 0, 0, 0⟩,
        { afterFirst with checkpoint := some 125 }) := by
    decide +kernel
  have hbetween : between = { afterFirst with checkpoint := some 125 } :=
    (applied_of_takeIn? [] steady rfl (by decide) hnothing).2
  have hevents : Extraction.ofAll indexer.registry querier [secondSwap] = _ :=
    Extraction.ofAll_written rfl (readExecutions_execution "swap" (by simp)) rfl
  have hlast : takeIn? between 125 (Asking.value querier (indexer.derive between [secondSwap] 140
      (Extraction.ofAll indexer.registry querier [secondSwap]))) =
        some (⟨125, 140, 1, 1, 0, 0, 1, 1, 0, 0⟩, afterSecond) := by
    rw [hevents, hbetween]
    decide +kernel
  have hthree : inThree = afterSecond := (applied_of_takeIn? [] steady rfl (by decide) hlast).2
  have hempty : indexer.Follows (fun _ k => k = querier) TwoSwaps.chain .new between :=
    (follows_first rfl).take rfl (TwoSwaps.chain.upTo_honest 125) rfl (by decide) steady rfl
      (hbetween ▸ hnothing)
  have hend : indexer.start afterSecond = .ok 140 := by decide +kernel
  refine derived_tables_independent_of_segments steady sameTimes
    (follows_second rfl (.inl rfl) rfl) (?_ : indexer.Follows _ TwoSwaps.chain .new inThree) hend
    (hthree ▸ hend)
  rw [hthree]
  exact hempty.take (by rw [hbetween]; decide +kernel) (TwoSwaps.chain.upTo_honest 140) rfl
    (by decide) steady rfl hlast

end Indexer

end PoolLedger
