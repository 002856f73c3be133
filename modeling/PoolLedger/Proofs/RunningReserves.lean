import PoolLedger.Proofs.Filing
import PoolLedger.Proofs.PoolTable
import PoolLedger.Proofs.Store.Merge

/-! Running reserves, whoever answers. The passes over a chain may have a different querier
each. It is asked for a pool when the pool has its first change, and what it tells then is
where the history of the pool starts; all that comes later goes on from what is stored. -/

namespace PoolLedger

open Asking
open PoolChange (ofPool inChainOrder leastHeight?)

theorem LiquidityChange.bucketed_withoutPool (width : Timestamp) (xs : List LiquidityChange) :
    bucketed? width (xs.map withoutPool) = (bucketed? width xs).map (List.map withoutPool) :=
  bucketed_map (f := withoutPool) (fun _ => rfl) (fun _ _ => rfl) xs

namespace Indexer

variable {ix : Indexer} {K : Segment → Querier → Prop} {k k' : Querier} {asked : List Query}
  {chain : Chain} {p : Progress} {s : Store} {o next : Height} {x : Extraction} {b : Batch}
  {swaps : List Swap} {liquidity : List LiquidityChange} {txs : List Transaction}

theorem Applies.swaps_kept (h : ix.Applies k s txs next x b) (k' : Querier) :
    ChainEvent.kept ix k' txs = some b.swaps := by
  have hbucketed := h.settled.swaps
  rwa [h.extracted.swaps k'] at hbucketed

theorem Applies.liquidity_kept (h : ix.Applies k s txs next x b) (k' : Querier) :
    ∃ told : List LiquidityChange, ChainEvent.kept ix k' txs = some told ∧
      told.map LiquidityChange.withoutPool = b.liquidity.map LiquidityChange.withoutPool := by
  have hblind (ys : List LiquidityChange) :
      bucketed? ix.bucketWidth (keepLast (ys.map LiquidityChange.withoutPool)) =
        (bucketed? ix.bucketWidth (keepLast ys)).map (List.map LiquidityChange.withoutPool) := by
    rw [keepLast_map (f := LiquidityChange.withoutPool) fun _ => rfl,
      LiquidityChange.bucketed_withoutPool]
  have hsame : x.liquidity.map LiquidityChange.withoutPool =
      (Extraction.ofAll ix.registry k' txs).liquidity.map LiquidityChange.withoutPool := by
    rw [← Extraction.liquidity_withoutPool, h.blind, ← Extraction.withoutPool_ofAll ix.registry k',
      Extraction.liquidity_withoutPool]
  have hkept := hblind x.liquidity
  rw [hsame, hblind, h.settled.liquidity, Option.map_some] at hkept
  exact Option.map_eq_some_iff.1 hkept

/-- The events are those that a chain gives up to a height, but for what pools were asked for. -/
structure KeptBlind (ix : Indexer) (k : Querier) (chain : Chain) (o : Height) (swaps : List Swap)
    (liquidity : List LiquidityChange) : Prop where
  swaps : ChainEvent.kept ix k (chain.between ix.initialHeight o) = some swaps
  liquidity : ∃ told : List LiquidityChange,
    ChainEvent.kept ix k (chain.between ix.initialHeight o) = some told ∧
      told.map LiquidityChange.withoutPool = liquidity.map LiquidityChange.withoutPool

theorem keptBlind_empty (ix : Indexer) (k : Querier) (chain : Chain) :
    ix.KeptBlind k chain ix.initialHeight [] [] where
  swaps := by rw [chain.between_self, ChainEvent.kept_nil]
  liquidity := ⟨[], by rw [chain.between_self, ChainEvent.kept_nil], rfl⟩

theorem KeptBlind.after (h : ix.KeptBlind k chain o swaps liquidity) (h₁ : ix.initialHeight ≤ o)
    (h₂ : o ≤ next) (hb : ix.Applies k' s (chain.between o next) next x b) :
    ix.KeptBlind k chain next (swaps ++ b.swaps) (liquidity ++ b.liquidity) where
  swaps := ChainEvent.kept_append h₁ h₂ h.swaps (hb.swaps_kept k)
  liquidity := by
    obtain ⟨told, hkept, htold⟩ := h.liquidity
    obtain ⟨told', hkept', htold'⟩ := hb.liquidity_kept k
    exact ⟨told ++ told', ChainEvent.kept_append h₁ h₂ hkept hkept',
      by rw [List.map_append, List.map_append, htold, htold']⟩

/-- The state is what was told of a pool for the height below its first change, by someone who
answered about the segment of that change. -/
def Started (K : Segment → Querier → Prop) (pair : Pair) (address : String)
    (changes : List PoolChange) (start : PoolState) : Prop :=
  ∀ first, leastHeight? changes = some first → ∃ segment k asked, K segment k ∧
    (∃ tx ∈ segment.transactions, tx.height = first) ∧
      start = .ofReserves (k.reservesTold asked pair address first)

/-- The table of reserves holds, for each registered pool, the history of its changes, and
nothing else. -/
structure Recounts (ix : Indexer) (K : Segment → Querier → Prop) (s : Store) (swaps : List Swap)
    (liquidity : List LiquidityChange) : Prop where
  unique : TableId.snapshots.schema.UniqueKeys s.snapshots
  owned : ∀ row ∈ s.snapshots, ∃ address, (ix.registry.byAddress? address).isSome ∧
    row.textIs 0 address = true
  pools : ∀ address pair, ix.registry.byAddress? address = some pair →
    ∃ start, Started K pair address (ofPool swaps liquidity address) start ∧
      PoolTable address start (ofPool swaps liquidity address) s.snapshots

theorem recounts_empty (ix : Indexer) (K : Segment → Querier → Prop) :
    ix.Recounts K .empty [] [] where
  unique := .nil
  owned := by simp [Store.empty]
  pools address _ _ := ⟨.empty, nofun, .empty address .empty⟩

theorem Holds.sameTimes (h : ix.Holds chain o s swaps liquidity) (hsame : chain.SameTimes) :
    PoolChange.SameTimes (PoolChange.all swaps liquidity) := by
  intro c hc d hd hcd
  obtain ⟨-, -, tx, htx, hh, ht⟩ := h.within hc
  obtain ⟨-, -, ty, hty, hh', ht'⟩ := h.within hd
  rw [hsame tx htx ty hty (by rw [hh, hh', hcd]), ht'] at ht
  exact (Option.some.inj ht).symm

theorem Applies.pool_rows (hb : ix.Applies k s txs next x b) {seeds : Seeds}
    (hsnapshots : b.snapshots = Snapshot.accumulate ix.registry seeds b.swaps b.liquidity)
    {address : String} {pair : Pair} (hp : ix.registry.byAddress? address = some pair)
    {start : PoolState} {changes : List PoolChange}
    (ht : PoolTable address start changes s.snapshots) (row : Row) :
    row ∈ (s.after b).snapshots ∧ row.textIs 0 address = true ↔
      (∃ y ∈ Snapshot.ofPool seeds address (ofPool b.swaps b.liquidity address),
        row = Record.stored y) ∨
      (row ∈ s.snapshots ∧ row.textIs 0 address = true) ∧
        ∀ y ∈ Snapshot.ofPool seeds address (ofPool b.swaps b.liquidity address),
          TableId.snapshots.schema.keyOf (Record.stored y) ≠
            TableId.snapshots.schema.keyOf row := by
  have hown {y : Snapshot} : y ∈ b.snapshots ∧ y.pairAddress = address ↔
      y ∈ Snapshot.ofPool seeds address (ofPool b.swaps b.liquidity address) := by
    rw [hsnapshots, Snapshot.mem_accumulate]
    constructor
    · rintro ⟨⟨a, -, hy⟩, rfl⟩
      rwa [(PoolState.mem_history (Snapshot.mem_of_mem_lastPerTime hy)).1]
    · exact fun hy => ⟨⟨address, by rw [hp]; rfl, hy⟩,
        (PoolState.mem_history (Snapshot.mem_of_mem_lastPerTime hy)).1⟩
  rw [hb.mem_snapshots]
  constructor
  · rintro ⟨hrow | ⟨hkeys, hrow⟩, htext⟩
    · obtain ⟨y, hy, rfl⟩ := List.mem_map.1 hrow
      exact .inl ⟨y, hown.1 ⟨hy, textIs_stored_snapshot.1 htext⟩, rfl⟩
    · exact .inr ⟨⟨hrow, htext⟩, fun y hy => hkeys _ (List.mem_map_of_mem (hown.2 hy).1)⟩
  · rintro (⟨y, hy, rfl⟩ | ⟨⟨hrow, htext⟩, hkeys⟩)
    · obtain ⟨hy, haddress⟩ := hown.2 hy
      exact ⟨.inl (List.mem_map_of_mem hy), textIs_stored_snapshot.2 haddress⟩
    · refine ⟨.inr ⟨fun row' hrow' hkey => ?_, hrow⟩, htext⟩
      obtain ⟨y, hy, rfl⟩ := List.mem_map.1 hrow'
      -- a key tells the pool
      obtain ⟨z, hz, rfl⟩ := (ht.mem_iff row).1 ⟨hrow, htext⟩
      refine hkeys y (hown.1 ⟨hy, ?_⟩) hkey
      rw [PoolTable.key_eq hz, keyOf_stored_snapshot, (hb.filed y hy).key,
        Option.some.injEq, Cell.text.injEq, timeKey_inj] at hkey
      exact hkey.2

section Step

variable (hs : ix.Holds chain o s swaps liquidity)
  (hb : ix.Applies k s (chain.between o next) next x b) {address : String} {pair : Pair}
  {start : PoolState} {seeds : Seeds}
include hs hb

theorem Holds.pool_insert (hp : ix.registry.byAddress? address = some pair)
    (hsnapshots : b.snapshots = Snapshot.accumulate ix.registry seeds b.swaps b.liquidity)
    (ht : PoolTable address start (ofPool swaps liquidity address) s.snapshots)
    (hstate : ofPool b.swaps b.liquidity address ≠ [] →
      seeds.state address = start.after (inChainOrder (ofPool swaps liquidity address))) :
    PoolTable address start (ofPool (swaps ++ b.swaps) (liquidity ++ b.liquidity) address)
      (s.after b).snapshots := by
  refine ht.insert (PoolChange.inChainOrder_ofPool_append (fun c hc => (hs.within hc).2.1)
    (fun c hc => (hb.within hc).1) address) hstate (hb.pool_rows hsnapshots hp ht)
    fun y hy => hb.fits.snapshots y ?_
  rw [hsnapshots, Snapshot.mem_accumulate]
  exact ⟨address, by rw [hp]; rfl, hy⟩

variable (hsame : chain.SameTimes)
include hsame

theorem Holds.state_eq (hp : ix.registry.byAddress? address = some pair)
    (hseeds : (Snapshot.resolveSeeds ix.registry s.latestReserveBefore
      (Snapshot.minHeights ix.registry b.swaps b.liquidity) k asked).1 = .ok seeds)
    (ht : PoolTable address start (ofPool swaps liquidity address) s.snapshots) {first : Height}
    (hfirst : leastHeight? (ofPool b.swaps b.liquidity address) = some first) :
    ∃ before, seeds.state address =
      if ofPool swaps liquidity address = [] then
        .ofReserves (k.reservesTold before pair address first)
      else start.after (inChainOrder (ofPool swaps liquidity address)) := by
  have hone : ∀ g, (address, g) ∈ Snapshot.minHeights ix.registry b.swaps b.liquidity →
      g = first := fun g hg =>
    Option.some.inj ((Snapshot.mem_minHeights.1 hg).2.symm.trans hfirst)
  obtain ⟨t, before, hstored, hstate⟩ := Snapshot.exists_state_resolveSeeds hseeds
    (Snapshot.mem_minHeights.2 ⟨by rw [hp]; rfl, hfirst⟩) hone hp
  obtain ⟨⟨c, hc, rfl⟩, -⟩ := PoolChange.leastHeight?_eq_some.1 hfirst
  have hcm := (PoolChange.mem_ofPool.1 hc).1
  -- all earlier changes lie below the segment, so the lookup below its first change finds the end
  have hbound : ∀ d ∈ ofPool swaps liquidity address,
      d.position.height.val < (Store.bound c.position.height).val := by
    intro d hd
    rw [Store.bound_val (hb.fits.height hcm)]
    exact Ranged.lt_of_lt_of_le (hs.within (PoolChange.mem_ofPool.1 hd).1).2.1 (hb.within hcm).1
  have htimes : PoolChange.SameTimes (ofPool swaps liquidity address) :=
    (hs.sameTimes hsame).subset fun _ hc => (PoolChange.mem_ofPool.1 hc).1
  rw [ht.latestReserveBefore_eq htimes hbound] at hstored
  obtain rfl := Except.ok.inj hstored
  refine ⟨before, ?_⟩
  rw [hstate]
  split
  · rename_i hnil
    simp [hnil, inChainOrder, PoolState.history]
  · rename_i hne
    obtain ⟨z, hz, hzs⟩ := PoolState.exists_last address start hne
    rw [hz, ← hzs]
    rfl

variable (h : ix.Recounts K s swaps liquidity) (kind : K ⟨chain.between o next, next⟩ k)
include h kind

theorem Recounts.pools_after (hp : ix.registry.byAddress? address = some pair) :
    ∃ start, Started K pair address
        (ofPool (swaps ++ b.swaps) (liquidity ++ b.liquidity) address) start ∧
      PoolTable address start (ofPool (swaps ++ b.swaps) (liquidity ++ b.liquidity) address)
        (s.after b).snapshots := by
  obtain ⟨start, hstart, ht⟩ := h.pools address pair hp
  obtain ⟨asked, seeds, hseeds, hsnapshots⟩ := hb.seeded
  have hstate {first : Height} (hfirst : leastHeight? (ofPool b.swaps b.liquidity address) =
      some first) := hs.state_eq hb hsame hp hseeds ht hfirst
  have hleast := PoolChange.leastHeight?_ofPool_append (a := address)
    (fun c hc => (hs.within hc).2.1) fun c hc => (hb.within hc).1
  -- a pool without changes may start anew, any other goes on from the end of its history
  by_cases hold : ofPool swaps liquidity address = []
  · refine ⟨seeds.state address, fun first hfirst => ?_, ?_⟩
    · rw [hleast, PoolChange.leastHeight?_eq_none.2 hold, Option.none_or] at hfirst
      obtain ⟨before, htold⟩ := hstate hfirst
      obtain ⟨⟨c, hc, rfl⟩, -⟩ := PoolChange.leastHeight?_eq_some.1 hfirst
      obtain ⟨hge, hlt, tx, htx, hheight, -⟩ := hb.within (PoolChange.mem_ofPool.1 hc).1
      rw [← hheight] at hge hlt
      exact ⟨_, k, before, kind, ⟨tx, Chain.mem_between.2 ⟨htx, hge, hlt⟩, hheight⟩,
        by rw [htold, if_pos hold]⟩
    · rw [hold] at ht
      refine hs.pool_insert hb hp hsnapshots (by rw [hold]; exact ht.restart _) fun _ => ?_
      simp [hold, inChainOrder, PoolState.after]
  · refine ⟨start, fun first hfirst => hstart first ?_, ?_⟩
    · obtain ⟨g, hg⟩ := PoolChange.exists_leastHeight hold
      rw [hleast, hg, Option.some_or] at hfirst
      rw [hg, hfirst]
    · refine hs.pool_insert hb hp hsnapshots ht fun hnew => ?_
      obtain ⟨first, hfirst⟩ := PoolChange.exists_leastHeight hnew
      obtain ⟨before, hend⟩ := hstate hfirst
      rw [hend, if_neg hold]

theorem Recounts.after :
    ix.Recounts K (s.after b) (swaps ++ b.swaps) (liquidity ++ b.liquidity) where
  unique := h.unique.insertEach
  owned row hrow := by
    rcases hb.mem_snapshots.1 hrow with hrow | ⟨-, hrow⟩
    · obtain ⟨y, hy, rfl⟩ := List.mem_map.1 hrow
      exact ⟨y.pairAddress, hb.owned hy, textIs_stored_snapshot.2 rfl⟩
    · exact h.owned row hrow
  pools _ _ hp := h.pools_after hs hb hsame kind hp

end Step

theorem Follows.recounts (hsame : chain.SameTimes) (h : ix.Follows K chain p s) (k : Querier) :
    ∃ o swaps liquidity, ix.Holds chain o s swaps liquidity ∧ ix.Recounts K s swaps liquidity ∧
      ix.KeptBlind k chain o swaps liquidity := by
  obtain ⟨o, swaps, liquidity, hs, ⟨hr, hkept⟩, -⟩ :=
    h.invariant (P := fun o s swaps liquidity => ix.Recounts K s swaps liquidity ∧
      ix.KeptBlind k chain o swaps liquidity)
      ⟨recounts_empty ix K, keptBlind_empty ix k chain⟩
      fun hs ⟨hr, hkept⟩ hlt kind hb => ⟨hr.after hs hb hsame kind,
        hkept.after hs.initial_le (Int.le_of_lt hlt) hb⟩
  exact ⟨o, swaps, liquidity, hs, hr, hkept⟩

end Indexer

end PoolLedger
