import PoolLedger.Proofs.Orderly
import PoolLedger.Proofs.Segmentation

/-! Taking in a segment a second time, after the checkpoint was set back. The
events are ignored, and candles and yields come out as they are. The snapshots do
so when every pool starts where it started the first time; that is, when none
starts from a snapshot in a bucket of its own changes, for the first pass has
replaced such a snapshot. -/

namespace PoolLedger

namespace Indexer

theorem Logs.insert_again {α : Type} [Keyed α] [Timed α] [Record α] [ChainEvent α] {ix : Indexer}
    {chain : Chain} {o : Height} {rows : List Row} {xs ys : List α} (h : ix.Logs chain o rows xs)
    (hsub : ys ⊆ xs) : (Record.table α).schema.insertEach rows (ys.map Record.row) = rows := by
  apply TableSchema.insertEach_taken (ChainEvent.conflict (α := α))
  intro row hrow
  obtain ⟨y, hy, rfl⟩ := List.mem_map.1 hrow
  refine ⟨Record.stored y, ?_, rfl⟩
  rw [h.rows_eq]
  exact List.mem_map_of_mem (hsub hy)

open PoolChange (ofPool)

variable {ix : Indexer} {K : Segment → Querier → Prop} {k : Querier} {chain : Chain}
  {source : SegmentSource} {s s' : Store} {o next : Height} {x : Extraction} {b b' : Batch}
  {txs : List Transaction} {p : Progress} {swaps : List Swap} {liquidity : List LiquidityChange}

/-- No pool of a batch starts from a snapshot in a bucket of its own changes. -/
def SeedsKept (ix : Indexer) (s : Store) (b : Batch) : Prop :=
  ∀ a h, (a, h) ∈ Snapshot.minHeights ix.registry b.swaps b.liquidity →
    ∀ z, s.latestReserveBefore a h = .ok (some z) →
      ∀ c ∈ ofPool b.swaps b.liquidity a, c.timestamp ≠ z.timestamp

/-- The yields that a batch would renew over a store can be stored. -/
def YieldsFit (ix : Indexer) (k : Querier) (s : Store) (txs : List Transaction) (b : Batch) : Prop :=
  ∀ q ∈ ix.pairsToRenew k txs b.liquidity,
    Record.Fits (ix.yieldOf k s txs b.checkpoint b.liquidity q)

theorem Takes.events_eq (hb : ix.Takes k source o s b) (hb' : ix.Takes k source o s' b') :
    b'.swaps = b.swaps ∧ b'.liquidity = b.liquidity ∧ b'.checkpoint = b.checkpoint := by
  obtain ⟨txs, hseg, hd⟩ := hb.derived
  obtain ⟨txs', hseg', hd'⟩ := hb'.derived
  rw [hseg, Except.ok.injEq, Segment.mk.injEq] at hseg'
  obtain ⟨rfl, hnext⟩ := hseg'
  exact ⟨Option.some.inj (hd'.swaps.symm.trans hd.swaps),
    Option.some.inj (hd'.liquidity.symm.trans hd.liquidity), hnext.symm⟩

theorem Applies.exists_timestamp (h : ix.Applies k s txs next x b) {a : String}
    (ha : (ix.registry.byAddress? a).isSome) {t : Timestamp} :
    (∃ x ∈ b.snapshots, x.pairAddress = a ∧ x.timestamp = t) ↔
      ∃ c ∈ ofPool b.swaps b.liquidity a, c.timestamp = t := by
  obtain ⟨seeds, hsnap⟩ := h.settled.snapshots
  rw [hsnap]
  constructor
  · rintro ⟨x, hx, rfl, rfl⟩
    obtain ⟨a, -, hx⟩ := Snapshot.mem_accumulate.1 hx
    obtain ⟨rfl, -, c, hc, -, ht⟩ := PoolState.mem_history (Snapshot.mem_of_mem_lastPerTime hx)
    exact ⟨c, PoolChange.mem_inChainOrder.1 hc, ht.symm⟩
  · rintro ⟨c, hc, rfl⟩
    have hm := List.mem_map_of_mem (f := PoolChange.timestamp) (PoolChange.mem_inChainOrder.2 hc)
    rw [← PoolState.map_timestamp_history a (seeds.state a)] at hm
    obtain ⟨y, hy, hyt⟩ := List.mem_map.1 hm
    obtain ⟨x, hx, hxt⟩ := Snapshot.exists_mem_lastPerTime hy
    refine ⟨x, Snapshot.mem_accumulate.2 ⟨a, ha, ?_⟩, ?_, hxt.trans hyt⟩
    · rwa [Snapshot.ofPool_eq]
    · exact (PoolState.mem_history (Snapshot.mem_of_mem_lastPerTime hx)).1

theorem seed_again_iff (ho : Orderly o s) (hb : ix.Applies k s txs next x b)
    (hs' : s'.snapshots = (s.after b).snapshots) {a : String} {h : Height}
    (hm : (a, h) ∈ Snapshot.minHeights ix.registry b.swaps b.liquidity) :
    s'.latestReserveBefore a h = s.latestReserveBefore a h ↔
      ∀ z, s.latestReserveBefore a h = .ok (some z) →
        ∀ c ∈ ofPool b.swaps b.liquidity a, c.timestamp ≠ z.timestamp := by
  obtain ⟨ha, hleast⟩ := Snapshot.mem_minHeights.1 hm
  obtain ⟨⟨c, hc, hch⟩, hmin⟩ := PoolChange.leastHeight?_eq_some.1 hleast
  have hbound : (Store.bound h).val = h.val := by
    rw [← hch]
    exact Store.bound_val (hb.fits.height (PoolChange.mem_ofPool.1 hc).1)
  -- new snapshots are no seeds, since none is below the first change
  have hlow : ∀ x ∈ b.snapshots, x.pairAddress = a → (Store.bound h).val ≤ x.height.val := by
    intro x hx hxa
    obtain ⟨seeds, hsnap⟩ := hb.settled.snapshots
    rw [hsnap, Snapshot.mem_accumulate] at hx
    obtain ⟨a', -, hx⟩ := hx
    obtain ⟨ha', -, d, hdm, hdh, -⟩ := PoolState.mem_history (Snapshot.mem_of_mem_lastPerTime hx)
    rw [← ha', hxa] at hdm
    rw [hbound, hdh]
    exact hmin d (PoolChange.mem_inChainOrder.1 hdm)
  rw [Snapshot.latestReserveBefore_insertAll ho.snapshots hb.filed hs' hlow]
  refine forall₂_congr fun z _ => ?_
  have hsame := hb.exists_timestamp ha (t := z.timestamp)
  constructor
  · intro hx c hc ht
    obtain ⟨x, hxm, hxa, hxt⟩ := hsame.2 ⟨c, hc, ht⟩
    exact hx x hxm hxa hxt
  · intro hc x hx hxa ht
    obtain ⟨c, hcm, hct⟩ := hsame.1 ⟨x, hx, hxa, ht⟩
    exact hc c hcm hct

theorem rebuildCandles_again (h : ix.Holds chain o s swaps liquidity) (hle : o ≤ next)
    (hb : ix.Applies k s (chain.between o next) next x b) (hs' : s'.swaps = (s.after b).swaps) :
    ∃ cs, rebuildCandles s' b.swaps = .ok cs ∧ ∀ c, c ∈ cs ↔ c ∈ b.candles := by
  have hafter := (h.after hle hb).swapTable
  -- every swap is stored, so none is new
  have hadd : b.swaps.filter (fun n => !(Candle.inBucketsOf (swaps ++ b.swaps) b.swaps).any
      fun o => o.uniqueKey = n.uniqueKey) = [] := by
    rw [List.filter_eq_nil_iff]
    intro n hn
    simp only [Bool.not_eq_true', Bool.not_eq_false, List.any_eq_true, decide_eq_true_eq]
    exact ⟨n, Candle.mem_inBucketsOf.2 ⟨List.mem_append_right _ hn, n, hn, rfl⟩, rfl⟩
  have hbucket {d : PairBucket} (hd : ∃ y ∈ b.swaps, y.bucket = d) :
      Candle.ofBucket? (Candle.inBucketsOf (swaps ++ b.swaps) b.swaps ++ []) d =
        Candle.ofBucket? (swaps ++ b.swaps) d := by
    rw [ofBucket?_rebuilt hd, List.append_nil]
  have hall : ∀ x ∈ Candle.inBucketsOf (swaps ++ b.swaps) b.swaps ++ [], ∃ l,
      Candle.ofBucket? (Candle.inBucketsOf (swaps ++ b.swaps) b.swaps ++ []) x.bucket = some l := by
    intro x hx
    rw [List.append_nil] at hx
    obtain ⟨y, hy, hyx⟩ := (Candle.mem_inBucketsOf.1 hx).2
    obtain ⟨c, hc⟩ := h.ofBucket_new hb hy
    exact ⟨[c], by rw [hbucket ⟨y, hy, hyx⟩, ← hyx, hc]⟩
  obtain ⟨cs, hcs⟩ := Candle.exists_build? hall
  refine ⟨cs, (rebuildCandles_ok (hs'.trans hafter.rows_eq) hafter.fits hadd).2 hcs, fun c => ?_⟩
  rw [mem_rebuilt (by simp) hcs, List.append_nil, mem_rebuilt (fun _ hx => hx) (h.built hb)]

theorem yieldOf_again (hk : k.Steady) (ho : Orderly o s) (honest : source.Honest chain)
    (hb : ix.Takes k source o s b) (hs' : s'.aprs = (s.after b).aprs) {q : Pair}
    (hq : IsLastAt Pair.address (ix.pairsToRenew k (chain.between o b.checkpoint) b.liquidity) q) :
    (∃ past, s'.latestApr q.address = .ok past) ∧
      ix.yieldOf k s' (chain.between o b.checkpoint) b.checkpoint b.liquidity q =
        ix.yieldOf k s (chain.between o b.checkpoint) b.checkpoint b.liquidity q := by
  have haprs := ((hb.segment honest).2.yields hk).2
  have hy := ix.yieldsAt k s (chain.between o b.checkpoint) b.checkpoint b.liquidity
  have hfits : ∀ p ∈ ix.pairsToRenew k (chain.between o b.checkpoint) b.liquidity,
      Record.Fits (ix.yieldOf k s (chain.between o b.checkpoint) b.checkpoint b.liquidity p) := by
    intro p hp
    apply hb.fits.aprs
    rw [haprs]
    exact List.mem_map_of_mem hp
  have hold : ∀ row ∈ s.aprs,
      row.integerAt 1 < (moment (chain.between o b.checkpoint) b.checkpoint).1.val :=
    fun row hrow => Int.lt_of_lt_of_le (ho.yields row hrow) (moment_between chain (hb.segment honest).1).1
  have hlast := hy.latestApr_insertAll hfits hold
    (hs'.trans (congrArg s.insertAll haprs)) hq
  refine ⟨⟨_, hlast⟩, ?_⟩
  rw [yieldOf, Apr.pastOf, hlast]
  exact Apr.renewed_again hk _ _ _ _ _ _ _

theorem yieldsFit_of_distinct (hk : k.Steady) (ho : Orderly o s) (honest : source.Honest chain)
    (hb : ix.Takes k source o s b) (hs' : s'.aprs = (s.after b).aprs)
    (hdistinct : ∀ p ∈ ix.registry.pairs, ∀ q ∈ ix.registry.pairs, p.address = q.address → p = q) :
    ix.YieldsFit k s' (chain.between o b.checkpoint) b := by
  have hpairs : ∀ q ∈ ix.pairsToRenew k (chain.between o b.checkpoint) b.liquidity,
      q ∈ ix.registry.pairs := by
    intro q hq
    unfold pairsToRenew Apr.toRenew at hq
    split at hq
    · cases hq
    · exact (List.mem_filter.1 hq).1
  intro q hq
  obtain ⟨q', hlast, hm, haddress⟩ := exists_isLastAt Pair.address hq
  obtain rfl := hdistinct q' (hpairs q' hm) q (hpairs q hq) haddress
  rw [(yieldOf_again hk ho honest hb hs' hlast).2]
  apply hb.fits.aprs
  rw [((hb.segment honest).2.yields hk).2]
  exact List.mem_map_of_mem hq

theorem value_resolveSeeds_again (ho : Orderly o s) (hb : ix.Applies k s txs next x b)
    (hs' : s'.snapshots = (s.after b).snapshots)
    (hseeds : ix.SeedsKept s b) :
    Asking.value k (Snapshot.resolveSeeds ix.registry s'.latestReserveBefore
        (Snapshot.minHeights ix.registry b.swaps b.liquidity)) =
      Asking.value k (Snapshot.resolveSeeds ix.registry s.latestReserveBefore
        (Snapshot.minHeights ix.registry b.swaps b.liquidity)) := by
  refine congrArg (Asking.value k) (Snapshot.resolveSeeds_congr fun a h hm => ?_)
  exact (seed_again_iff ho hb hs' hm).2 (hseeds a h hm)

/-- What a second pass over a segment should come to: it applies the segment,
leaves the rows and the checkpoint of the first pass, and starts every pool
where that one did. -/
structure Replays (ix : Indexer) (k : Querier) (source : SegmentSource) (s : Store) (b : Batch)
    (rewound : Store) : Prop where
  applied : ∃ m, (Asking.value k (ix.pass source .new rewound)).result = .ok (.applied m)
  rows : ∀ t row, row ∈ (Asking.value k (ix.pass source .new rewound)).store.rows t ↔
    row ∈ (s.after b).rows t
  checkpoint : (Asking.value k (ix.pass source .new rewound)).store.checkpoint =
    (s.after b).checkpoint
  seeds : ∀ a h, (a, h) ∈ Snapshot.minHeights ix.registry b.swaps b.liquidity →
    rewound.latestReserveBefore a h = s.latestReserveBefore a h

theorem pass_cases_of_saveCheckpoint (hk : k.Steady) (hr : s.saveCheckpoint o = .ok s') :
    Pass.Cases ix k source o s' (Asking.value k (ix.pass source .new s')) := by
  obtain ⟨hword, rfl⟩ := Store.saveCheckpoint_ok.1 hr
  have hoffset : ix.offset .new { s with checkpoint := Ranged.ofInt? o.val } = .ok o :=
    start_of_checkpoint hword rfl
  rw [pass_of_offset hoffset]
  exact passFrom_cases hk

section Again

variable (hk : k.Steady) (h : ix.Holds chain o s swaps liquidity) (ho : Orderly o s)
  (honest : source.Honest chain) (hb : ix.Takes k source o s b)
  (hr : (s.after b).saveCheckpoint o = .ok s')
include hk h ho honest hb hr

theorem exists_takes_again (hseeds : ix.SeedsKept s b)
    (hyields : ix.YieldsFit k s' (chain.between o b.checkpoint) b) :
    ∃ b', ix.Takes k source o s' b' := by
  have hrows := Store.rows_of_saveCheckpoint hr
  obtain ⟨txs, hseg, hd⟩ := hb.derived
  obtain ⟨hle, htxs⟩ := honest o _ hseg
  simp only at hle htxs
  subst htxs
  obtain ⟨seeds, hvalue, hsnap⟩ := hd.snapshots
  obtain ⟨x, happlies⟩ := hb.applies hk honest
  obtain ⟨cs, hcs, hmem⟩ := rebuildCandles_again h hle happlies (hrows .swaps)
  let aprs := (ix.pairsToRenew k (chain.between o b.checkpoint) b.liquidity).map
    (ix.yieldOf k s' (chain.between o b.checkpoint) b.checkpoint b.liquidity)
  refine ⟨⟨b.swaps, b.liquidity, b.snapshots, cs, aprs, b.checkpoint⟩, ⟨_, hseg, hd.swaps,
    hd.liquidity, ⟨seeds, ?_, hsnap⟩, hcs, (Apr.refresh_ok hk).2 ⟨?_, rfl⟩, rfl⟩, hb.moved,
    hb.fits.swaps, hb.fits.liquidity, hb.fits.snapshots, ?_, ?_, hb.fits.checkpoint⟩
  · exact (value_resolveSeeds_again ho happlies (hrows .snapshots) hseeds).trans hvalue
  · intro q hq
    obtain ⟨q', hlast, -, haddress⟩ := exists_isLastAt Pair.address hq
    rw [← haddress]
    exact (yieldOf_again hk ho honest hb (hrows .aprs) hlast).1
  · intro c hc
    exact hb.fits.candles c ((hmem c).1 hc)
  · intro x hx
    obtain ⟨q, hq, rfl⟩ := List.mem_map.1 hx
    exact hyields q hq

theorem rows_again (hseeds : ix.SeedsKept s b) (hb' : ix.Takes k source o s' b') (t : TableId)
    (row : Row) : row ∈ (s'.after b').rows t ↔ row ∈ (s.after b).rows t := by
  have hrows := Store.rows_of_saveCheckpoint hr
  obtain ⟨hswaps, hliquidity, hnext⟩ := hb.events_eq hb'
  obtain ⟨hlt, hd⟩ := hb.segment honest
  obtain ⟨-, hd'⟩ := hb'.segment honest
  obtain ⟨x, happlies⟩ := hb.applies hk honest
  have hafter := h.after (Int.le_of_lt hlt) happlies
  rw [← hrows]
  cases t with
  | swaps =>
    have hs' : s'.swaps = (s.after b).swaps := hrows .swaps
    have he := hafter.swapTable.insert_again (List.subset_append_right swaps b.swaps)
    rw [← hs', ← hswaps] at he
    exact iff_of_eq (congrArg (row ∈ ·) he)
  | liquidity =>
    have hs' : s'.liquidity = (s.after b).liquidity := hrows .liquidity
    have he := hafter.liquidityTable.insert_again (List.subset_append_right liquidity b.liquidity)
    rw [← hs', ← hliquidity] at he
    exact iff_of_eq (congrArg (row ∈ ·) he)
  | snapshots =>
    have hsnap : b'.snapshots = b.snapshots := by
      obtain ⟨seeds, hvalue, hsnap⟩ := hd.snapshots
      obtain ⟨seeds', hvalue', hsnap'⟩ := hd'.snapshots
      rw [hswaps, hliquidity, value_resolveSeeds_again ho happlies (hrows .snapshots) hseeds,
        hvalue] at hvalue'
      obtain rfl := Except.ok.inj hvalue'
      rw [hsnap', hsnap, hswaps, hliquidity]
    change row ∈ s'.insertAll b'.snapshots ↔ _
    rw [hsnap]
    have hs' : s'.rows (Record.table Snapshot) = s.insertAll b.snapshots := hrows .snapshots
    exact Store.mem_insertAll_again rfl (fun _ => rfl) hs' row
  | candles =>
    obtain ⟨cs, hcs, hmem⟩ := rebuildCandles_again h (Int.le_of_lt hlt) happlies (hrows .swaps)
    have hcandles := hd'.candles
    rw [hswaps, hcs] at hcandles
    obtain rfl := Except.ok.inj hcandles
    have hone : ∀ c ∈ b.candles, ∃ d, Candle.ofBucket? (swaps ++ b.swaps) d = some [c] := by
      intro c hc
      obtain ⟨d, -, hd⟩ := (mem_rebuilt (fun _ hx => hx) (h.built happlies)).1 hc
      exact ⟨d, hd⟩
    exact CandleTable.mem_insertAll_again hone hmem (hrows .candles)
  | aprs =>
    have haprs := (hd.yields hk).2
    have haprs' := (hd'.yields hk).2
    rw [hliquidity, hnext] at haprs'
    change row ∈ s'.insertAll b'.aprs ↔ _
    rw [haprs']
    exact (ix.yieldsAt k _ _ _ _).mem_insertAll_again (ix.yieldsAt k _ _ _ _)
      (fun q hq => (yieldOf_again hk ho honest hb (hrows .aprs) hq).2)
      ((hrows .aprs).trans (congrArg s.insertAll haprs))
  | pairs => rfl

omit h in
theorem kept_of_replays (hreplays : ix.Replays k source s b s') :
    ix.SeedsKept s b ∧ ix.YieldsFit k s' (chain.between o b.checkpoint) b := by
  have hrows := Store.rows_of_saveCheckpoint hr
  obtain ⟨x, happlies⟩ := hb.applies hk honest
  constructor
  · intro a g hm
    exact (seed_again_iff ho happlies (hrows .snapshots) hm).1 (hreplays.seeds a g hm)
  · obtain ⟨m, hm⟩ := hreplays.applied
    have hcases : Pass.Cases ix k source o s' (Asking.value k (ix.pass source .new s')) :=
      pass_cases_of_saveCheckpoint hk hr
    cases hcases with
    | kept _ _ _ happlied => exact absurd hm (happlied m)
    | took b' hb' _ _ _ =>
      obtain ⟨-, hliquidity, hnext⟩ := hb.events_eq hb'
      have haprs := ((hb'.segment honest).2.yields hk).2
      rw [hliquidity, hnext] at haprs
      intro q hq
      apply hb'.fits.aprs
      rw [haprs]
      exact List.mem_map_of_mem hq

theorem replays_of_kept (hseeds : ix.SeedsKept s b)
    (hyields : ix.YieldsFit k s' (chain.between o b.checkpoint) b) :
    ix.Replays k source s b s' := by
  have hrows := Store.rows_of_saveCheckpoint hr
  have hcases : Pass.Cases ix k source o s' (Asking.value k (ix.pass source .new s')) :=
    pass_cases_of_saveCheckpoint hk hr
  cases hcases with
  | kept hnone _ _ _ =>
    obtain ⟨b', hb'⟩ := exists_takes_again hk h ho honest hb hr hseeds hyields
    exact absurd hb' (hnone b')
  | took b' hb' hstore _ happlied =>
    refine ⟨happlied, fun t row => ?_, ?_, fun a g hm => ?_⟩
    · rw [hstore]
      exact rows_again hk h ho honest hb hr hseeds hb' t row
    · rw [hstore, Store.after, (hb.events_eq hb').2.2]
      rfl
    · obtain ⟨x, happlies⟩ := hb.applies hk honest
      exact (seed_again_iff ho happlies (hrows .snapshots) hm).2 (hseeds a g hm)

end Again

/-- After a pass the checkpoint can be set back. A second pass with the same answers then
reproduces the first one exactly when no pool started from a snapshot in a bucket of its own
changes, and the yields renewed again can be stored. -/
theorem replays_iff (h : ix.Follows K chain p s) (hk : k.Steady) (honest : source.Honest chain)
    {m : Summary} (hm : (Asking.value k (ix.pass source p s)).result = .ok (.applied m)) :
    ∃ o b rewound, ix.offset p s = .ok o ∧ ix.Takes k source o s b ∧
      (Asking.value k (ix.pass source p s)).store = s.after b ∧
      (s.after b).saveCheckpoint o = .ok rewound ∧
      (ix.Replays k source s b rewound ↔
        ix.SeedsKept s b ∧ ix.YieldsFit k rewound (chain.between o b.checkpoint) b) := by
  obtain ⟨o, swaps, liquidity, hs, ho, hp⟩ := h.invariant (P := fun o s _ _ => Orderly o s)
    (Orderly.empty _) fun _ ho hlt _ hb => ho.after hlt hb
  have hoffset := offset_of_start hs.start hp
  rw [pass_of_offset hoffset] at hm ⊢
  have hfirst : Pass.Cases ix k source o s (Asking.value k (ix.passFrom source o s)) :=
    passFrom_cases hk
  cases hfirst with
  | kept _ _ _ happlied => exact absurd hm (happlied m)
  | took b hb hstore _ _ =>
    -- the checkpoint lies below the next one, which is stored already
    have hword : IsWord o.val := by
      have hlow := o.lo_le
      have hlt := (hb.segment honest).1
      have hnext := hb.fits.checkpoint
      rw [Ranged.lt_def] at hlt
      exact ⟨by omega, by have := hnext.2; omega⟩
    obtain ⟨rewound, hr⟩ : ∃ rewound, (s.after b).saveCheckpoint o = .ok rewound :=
      ⟨_, Store.saveCheckpoint_ok.2 ⟨hword, rfl⟩⟩
    refine ⟨o, b, rewound, hoffset, hb, hstore, hr, ?_⟩
    constructor
    · exact kept_of_replays hk ho honest hb hr
    · rintro ⟨hseeds, hyields⟩
      exact replays_of_kept hk hs ho honest hb hr hseeds hyields

end Indexer

namespace Provided

open Sample Indexer PoolChange

def swapAt (t : Timestamp) : Transaction := { secondSwap with timestamp := t }

def chain (t : Timestamp) : Chain where
  transactions := [provided, swapAt t]
  ordered := by
    have hlt : (110 : Height) < 130 := by decide
    exact List.pairwise_pair.2 (.inl hlt)

def store : Store where
  swaps := []
  liquidity := [[.text "A", .text "orai", .integer 1, .text "usdt", .integer 2, .integer 10,
    .integer 20, .real 2, .text "provide", .integer 1, .integer 1, .text "trader", .text "pool",
    .integer 110, .integer 0, .integer 0, .integer 60, .text "110-orai-1-usdt-2"]]
  snapshots := [[.text "pool", .integer 11, .integer 22, .integer 5, .integer 110, .integer 60,
    .text "60-pool"]]
  candles := []
  aprs := [[.text "pool", .integer 110, .integer 0, .integer 0, .text "[]", .real 0, .integer 90,
    .text "110-pool"]]
  pairs := []
  checkpoint := some 120

def bucketedSwap (t start : Timestamp) : Swap :=
  { Extraction.swapOf (swapAt t) "trader" 0 ⟨"orai", "usdt", 1, 2, 0, 0, 0⟩ pair .sell with
    timestamp := start }

variable {t start : Timestamp} {b : Batch}

theorem follows : indexer.Follows (fun _ _ => True) (chain t) .new store := by
  have hevents : Extraction.ofAll indexer.registry querier [provided] = _ :=
    Extraction.ofAll_written rfl (readExecutions_execution "provide_liquidity" (by simp)) rfl
  have htaken : takeIn? .empty 100 (Asking.value querier (indexer.derive .empty [provided] 120
      (Extraction.ofAll indexer.registry querier [provided]))) =
        some (⟨100, 120, 1, 0, 1, 0, 1, 0, 1, 0⟩, store) := by
    rw [hevents]
    decide +kernel
  have hopened : indexer.Follows (fun _ _ => True) (chain t) .new .empty := .opened
  exact hopened.take rfl ((chain t).upTo_honest 120) rfl (by decide) steady trivial htaken

theorem events_swapAt (t : Timestamp) : Extraction.ofAll indexer.registry querier [swapAt t] =
    .concat [.concat [Asking.value querier (Extraction.ofMessage indexer.registry (swapAt t)
      (some ⟨none, [sale "pool" "1"]⟩) 0 (execution "swap"))]] :=
  Extraction.ofAll_written rfl (readExecutions_execution "swap" (by simp)) rfl

theorem segment_swapAt (t : Timestamp) : (chain t).upTo 140 120 = .ok ⟨[swapAt t], 140⟩ := rfl

theorem exists_applied (ht : t = 150 ∨ t = 100) : ∃ m,
    (Asking.value querier (indexer.pass ((chain t).upTo 140) .new store)).result =
      .ok (.applied m) := by
  have hstart : indexer.offset .new store = .ok 120 := by decide +kernel
  rw [pass_of_offset hstart, Asking.value_eq]
  have htaken : (takeIn? store 120 (Asking.value querier (indexer.derive store [swapAt t] 140
      (Extraction.ofAll indexer.registry querier [swapAt t])))).isSome := by
    rw [events_swapAt]
    rcases ht with rfl | rfl <;> decide +kernel
  obtain ⟨⟨m, s⟩, htaken⟩ := Option.isSome_iff_exists.1 htaken
  exact ⟨m, (applied_of_takeIn? [] steady (segment_swapAt t) (by decide) htaken).1⟩

theorem events_of_takes (ht : t = 150 ∧ start = 120 ∨ t = 100 ∧ start = 60)
    (hb : indexer.Takes querier ((chain t).upTo 140) 120 store b) :
    b.swaps = [bucketedSwap t start] ∧ b.liquidity = [] ∧ b.checkpoint = 140 := by
  obtain ⟨txs, hsegment, hd⟩ := hb.derived
  obtain ⟨rfl, hnext⟩ := Segment.mk.inj (Except.ok.inj (hsegment.symm.trans (segment_swapAt t)))
  have hkept : bucketed? indexer.bucketWidth (keepLast
      (Extraction.ofAll indexer.registry querier [swapAt t]).swaps) =
        some [bucketedSwap t start] := by
    rw [events_swapAt]
    rcases ht with ⟨rfl, rfl⟩ | ⟨rfl, rfl⟩ <;> decide +kernel
  have hnone : bucketed? indexer.bucketWidth (keepLast
      (Extraction.ofAll indexer.registry querier [swapAt t]).liquidity) = some [] := by
    rw [events_swapAt]
    rcases ht with ⟨rfl, rfl⟩ | ⟨rfl, rfl⟩ <;> decide +kernel
  exact ⟨Option.some.inj (hd.swaps.symm.trans hkept),
    Option.some.inj (hd.liquidity.symm.trans hnone), hnext⟩

theorem yieldsFit (ht : t = 150 ∨ t = 100) (hliquidity : b.liquidity = []) (s : Store) :
    indexer.YieldsFit querier s [swapAt t] b := by
  have hnone : indexer.pairsToRenew querier [swapAt t] [] = [] := by
    rw [pairsToRenew, triggers, events_swapAt]
    rcases ht with rfl | rfl <;> decide +kernel
  intro q hq
  rw [hliquidity, hnone] at hq
  cases hq

theorem seedsKept_iff (hswaps : b.swaps = [bucketedSwap t start]) (hliquidity : b.liquidity = []) :
    indexer.SeedsKept store b ↔ start ≠ 60 := by
  have hseed : store.latestReserveBefore "pool" 130 = .ok (some (.of "pool" 11 22 5 110 60)) := by
    decide +kernel
  have hfirst : Snapshot.minHeights indexer.registry [bucketedSwap t start] [] =
      [("pool", 130)] := rfl
  have hchanges : ofPool [bucketedSwap t start] [] "pool" = [.swap (bucketedSwap t start)] := rfl
  rw [SeedsKept, hswaps, hliquidity, hfirst]
  constructor
  · intro h
    exact h "pool" 130 List.mem_cons_self _ hseed _ (hchanges ▸ List.mem_cons_self)
  · intro hne a g hm z hz c hc
    obtain ⟨rfl, rfl⟩ := Prod.mk.inj (List.mem_singleton.1 hm)
    obtain rfl := Option.some.inj (Except.ok.inj (hz.symm.trans hseed))
    rw [hchanges, List.mem_singleton] at hc
    rw [hc]
    exact hne

end Provided

namespace Indexer

open Sample Provided

/-- A swap in a bucket of its own replays. One in the bucket of the provision before it has
replaced the snapshot that it went on from. -/
theorem swap_replays_in_own_bucket :
    (∃ b rewound, indexer.Takes querier ((Provided.chain 150).upTo 140) 120 Provided.store b ∧
      (Provided.store.after b).saveCheckpoint 120 = .ok rewound ∧
      indexer.Replays querier ((Provided.chain 150).upTo 140) Provided.store b rewound) ∧
    ∃ b rewound, indexer.Takes querier ((Provided.chain 100).upTo 140) 120 Provided.store b ∧
      (Provided.store.after b).saveCheckpoint 120 = .ok rewound ∧
      ¬ indexer.Replays querier ((Provided.chain 100).upTo 140) Provided.store b rewound := by
  have hstart : indexer.offset .new Provided.store = .ok 120 := by decide +kernel
  constructor
  · obtain ⟨m, hm⟩ := exists_applied (.inl rfl)
    obtain ⟨o, b, rewound, ho, hb, -, hr, hiff⟩ :=
      replays_iff follows steady ((Provided.chain 150).upTo_honest 140) hm
    cases ho.symm.trans hstart
    obtain ⟨hswaps, hliquidity, hnext⟩ := events_of_takes (.inl ⟨rfl, rfl⟩) hb
    refine ⟨b, rewound, hb, hr, hiff.2 ⟨(seedsKept_iff hswaps hliquidity).2 (by decide), ?_⟩⟩
    rw [hnext]
    exact yieldsFit (.inl rfl) hliquidity rewound
  · obtain ⟨m, hm⟩ := exists_applied (.inr rfl)
    obtain ⟨o, b, rewound, ho, hb, -, hr, hiff⟩ :=
      replays_iff follows steady ((Provided.chain 100).upTo_honest 140) hm
    cases ho.symm.trans hstart
    obtain ⟨hswaps, hliquidity, -⟩ := events_of_takes (.inr ⟨rfl, rfl⟩) hb
    exact ⟨b, rewound, hb, hr, fun h => (seedsKept_iff hswaps hliquidity).1 (hiff.1 h).1 rfl⟩

end Indexer

end PoolLedger
