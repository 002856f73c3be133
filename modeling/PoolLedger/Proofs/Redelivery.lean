import Mathlib.Data.List.Nodup
import PoolLedger.Proofs.CandleTable
import PoolLedger.Proofs.Endings
import PoolLedger.Proofs.Store.Merge

/-! Batches in any order, however they overlap. A swap that comes again is
dropped, and it falls into the bucket of the swap that stays. So every candle is
that of the stored swaps of its bucket. -/

namespace PoolLedger

/-- No denom of the registry has a dash, the mark between the parts of a key. -/
def Registry.DashFree (r : Registry) : Prop :=
  ∀ p ∈ r.pairs, '-' ∉ p.base.denom.toList ∧ '-' ∉ p.quote.denom.toList

theorem Registry.DashFree.of_direction? {r : Registry} (h : r.DashFree) {offer ask : String}
    {m : Pair × Direction} (hm : r.direction? offer ask = some m) :
    '-' ∉ offer.toList ∧ '-' ∉ ask.toList := by
  obtain ⟨⟨p, o⟩, hfound, -⟩ := Option.map_eq_some_iff.1 hm
  obtain ⟨q, hq, ho⟩ := List.exists_of_findSome?_eq_some hfound
  obtain ⟨hbase, hquote⟩ := h q hq
  obtain ⟨o', ho', -⟩ := Option.map_eq_some_iff.1 ho
  unfold Pair.orientation? at ho'
  split at ho'
  · rename_i hd
    exact hd.1 ▸ hd.2 ▸ ⟨hbase, hquote⟩
  · split at ho'
    · rename_i hd
      exact hd.1 ▸ hd.2 ▸ ⟨hquote, hbase⟩
    · cases ho'

def Transaction.SameTimes (txs : List Transaction) : Prop :=
  ∀ a ∈ txs, ∀ b ∈ txs, a.height = b.height → a.timestamp = b.timestamp

def Swap.From (ix : Indexer) (tx : Transaction) (x : Swap) : Prop :=
  ∃ y t, Event.From ix.registry tx (.swap y) ∧ bucketStart? ix.bucketWidth tx.timestamp = some t ∧
    x = { y with timestamp := t }

namespace Swap

variable {ix : Indexer}

theorem From.bucket_eq (hr : ix.registry.DashFree) {tx ty : Transaction}
    (htime : tx.height = ty.height → tx.timestamp = ty.timestamp) {x y : Swap} (hx : x.From ix tx)
    (hy : y.From ix ty) (hkey : x.uniqueKey = y.uniqueKey) : x.bucket = y.bucket := by
  obtain ⟨_, t, ⟨sender, msg, hop, traded⟩, ht, rfl⟩ := hx
  obtain ⟨_, t', ⟨sender', msg', hop', traded'⟩, ht', rfl⟩ := hy
  obtain ⟨hheight, hoffer, -, hask, -⟩ := (eventKey_eq_iff (hr.of_direction? traded).1
    (hr.of_direction? traded').1).1 hkey
  rw [hoffer, hask, traded', Option.some.injEq, Prod.mk.injEq] at traded
  rw [htime hheight, ht', Option.some.injEq] at ht
  obtain ⟨rfl, -⟩ := traded
  rw [Swap.bucket, Swap.bucket, ht]
  rfl

theorem From.of_bucketed {txs : List Transaction} {x : Extraction} {new : List Swap}
    (hx : Extraction.Of ix.registry txs x)
    (hn : bucketed? ix.bucketWidth (keepLast x.swaps) = some new) {y : Swap} (hy : y ∈ new) :
    ∃ tx ∈ txs, y.From ix tx := by
  obtain ⟨z, hz, t, ht, rfl⟩ := (mem_bucketed hn).1 hy
  obtain ⟨tx, htx, hfrom⟩ := hx.events _ (Extraction.mem_swaps.1 (mem_of_mem_keepLast hz))
  obtain ⟨-, htime, -⟩ := hfrom.stamped
  exact ⟨tx, htx, z, t, hfrom, htime ▸ ht, rfl⟩

def fresh (swaps new : List Swap) : List Swap :=
  new.filter fun n => !swaps.any fun o => o.uniqueKey = n.uniqueKey

theorem mem_fresh {swaps new : List Swap} {n : Swap} :
    n ∈ fresh swaps new ↔ n ∈ new ∧ ∀ o ∈ swaps, o.uniqueKey ≠ n.uniqueKey := by
  simp [fresh]

theorem insertEach_fresh {swaps new : List Swap}
    (hn : new.Pairwise fun a b => Keyed.uniqueKey a ≠ Keyed.uniqueKey b) :
    TableId.swaps.schema.insertEach (swaps.map Record.stored) (new.map Record.row) =
      (swaps ++ fresh swaps new).map Record.stored := by
  have hapart (a b : Swap) : TableId.swaps.schema.Apart (Record.stored a) (Record.stored b) ↔
      a.uniqueKey ≠ b.uniqueKey := by
    rw [TableSchema.Apart, keyOf_stored_swap, keyOf_stored_swap]
    simp
  have hunique : TableId.swaps.schema.UniqueKeys (new.map Record.stored) :=
    List.pairwise_map.2 (hn.imp fun {a b} hab => (hapart a b).2 hab)
  rw [TableSchema.insertEach_eq_merge]
  change swaps.map Record.stored ++ TableId.swaps.schema.without
    (TableId.swaps.schema.firsts ((new.map Record.row).map Row.stored)) (swaps.map Record.stored) = _
  rw [Record.map_stored_row, TableSchema.firsts_of_unique hunique, List.map_append,
    TableSchema.without, List.filter_map, fresh]
  congr 2
  refine List.filter_congr fun n _ => ?_
  rw [Bool.eq_iff_iff]
  simp [hapart]

end Swap

namespace Indexer

open Asking

/-- A store after batches from any sources and from any heights, whoever answered.
`fed` are the transactions of all of them. -/
inductive Feeds (ix : Indexer) : List Transaction → Store → Prop
  | opened : ix.Feeds [] .empty
  | applied {fed : List Transaction} {s : Store} (before : ix.Feeds fed s)
    (source : SegmentSource) (p : Progress) (k : Querier) (asked : List Query) {o next : Height}
    {txs : List Transaction} {m : Summary} (offset : ix.offset p s = .ok o)
    (segment : source o = .ok ⟨txs, next⟩)
    (applied : (ix.pass source p s k asked).1.result = .ok (.applied m)) :
    ix.Feeds (fed ++ txs) (ix.pass source p s k asked).1.store

/-- The swaps of a store after some transactions, and their candles. -/
structure Keeps (ix : Indexer) (fed : List Transaction) (s : Store) (swaps : List Swap) : Prop where
  rows_eq : s.swaps = swaps.map Record.stored
  fits : ∀ x ∈ swaps, Record.Fits x
  source : ∀ x ∈ swaps, ∃ tx ∈ fed, x.From ix tx
  unique : swaps.Pairwise fun a b => Keyed.uniqueKey a ≠ Keyed.uniqueKey b
  candles : CandleTable swaps s.candles
  complete : ∀ x ∈ swaps, ∃ c, Candle.ofBucket? swaps x.bucket = some [c]
  candleFits : ∀ b c, Candle.ofBucket? swaps b = some [c] → Record.Fits c
  uniqueCandles : TableId.candles.schema.UniqueKeys s.candles

theorem keeps_empty (ix : Indexer) : ix.Keeps [] .empty [] where
  rows_eq := rfl
  fits := by simp
  source := by simp
  unique := .nil
  candles := .empty
  complete := by simp
  candleFits := fun b c hc => absurd (Candle.bucket_of_mem hc List.mem_cons_self) (by simp)
  uniqueCandles := .nil

variable {ix : Indexer} {fed txs : List Transaction} {s : Store} {swaps : List Swap}
  {x : Extraction} {next : Height} {b : Batch}

section Step

variable (hr : ix.registry.DashFree) (hsame : Transaction.SameTimes (fed ++ txs))
  (h : ix.Keeps fed s swaps) (hx : Extraction.Of ix.registry txs x) (hb : ix.Settles s next x b)
include hr hsame h hx hb

theorem Keeps.bucket_eq {n y : Swap} (hn : n ∈ swaps) (hy : y ∈ b.swaps)
    (hkey : n.uniqueKey = y.uniqueKey) : n.bucket = y.bucket := by
  obtain ⟨tx, htx, hnx⟩ := h.source n hn
  obtain ⟨ty, hty, hyy⟩ := Swap.From.of_bucketed hx hb.swaps hy
  exact hnx.bucket_eq hr
    (hsame tx (List.mem_append_left _ htx) ty (List.mem_append_right _ hty)) hyy hkey

theorem Keeps.built : Candle.build? (Candle.inBucketsOf swaps b.swaps ++ Swap.fresh swaps b.swaps) =
    some b.candles := by
  refine (rebuildCandles_ok h.rows_eq h.fits ?_).1 hb.candles
  refine List.filter_congr fun y hy => ?_
  rw [Bool.eq_iff_iff]
  simp only [Bool.not_eq_true', List.any_eq_false, decide_eq_true_eq, Candle.mem_inBucketsOf]
  constructor
  · intro hnone n hn hkey
    exact hnone n ⟨hn, y, hy, (h.bucket_eq hr hsame hx hb hn hy hkey).symm⟩ hkey
  · exact fun hnone n hn => hnone n hn.1

theorem Keeps.candle_of_new {y : Swap} (hy : y ∈ b.swaps) :
    ∃ c, Candle.ofBucket? (swaps ++ Swap.fresh swaps b.swaps) y.bucket = some [c] := by
  have hbuilt := h.built hr hsame hx hb
  -- a swap that is stored already has the stored one in its bucket
  obtain ⟨z, hz, hzb⟩ : ∃ z ∈ Candle.inBucketsOf swaps b.swaps ++ Swap.fresh swaps b.swaps,
      z.bucket = y.bucket := by
    by_cases hstored : ∃ n ∈ swaps, n.uniqueKey = y.uniqueKey
    · obtain ⟨n, hn, hkey⟩ := hstored
      have hbucket := h.bucket_eq hr hsame hx hb hn hy hkey
      exact ⟨n, List.mem_append_left _ (Candle.mem_inBucketsOf.2 ⟨hn, y, hy, hbucket.symm⟩), hbucket⟩
    · refine ⟨y, List.mem_append_right _ (Swap.mem_fresh.2 ⟨hy, fun n hn hkey => ?_⟩), rfl⟩
      exact hstored ⟨n, hn, hkey⟩
  obtain ⟨l, hl⟩ := (Candle.build?_eq_some hbuilt).1 z hz
  obtain ⟨c, rfl⟩ := Candle.exists_of_bucket hl ⟨z, hz, rfl⟩
  rw [hzb, ofBucket?_rebuilt ⟨y, hy, rfl⟩] at hl
  exact ⟨c, hl⟩

theorem Keeps.after (fits : b.Fits) :
    ix.Keeps (fed ++ txs) (s.after b) (swaps ++ Swap.fresh swaps b.swaps) := by
  have hsub : ∀ y ∈ Swap.fresh swaps b.swaps, y ∈ b.swaps := fun y hy => (Swap.mem_fresh.1 hy).1
  have hnew : b.swaps.Pairwise fun a b => Keyed.uniqueKey a ≠ Keyed.uniqueKey b :=
    ChainEvent.bucketed_pairwise hb.swaps
  have hcandle {y : Swap} (hy : y ∈ b.swaps) := h.candle_of_new hr hsame hx hb hy
  refine {
    rows_eq := ?_
    fits := fun y hy => (List.mem_append.1 hy).elim (h.fits y) fun hy => fits.swaps y (hsub y hy)
    source := fun y hy => ?_
    unique := ?_
    candles := h.candles.insert hsub (fun y hy => hcandle hy)
      fun c => mem_rebuilt hsub (h.built hr hsame hx hb)
    complete := fun y hy => ?_
    candleFits := fun bucket c hc => ?_
    uniqueCandles := h.uniqueCandles.insertEach }
  · change TableId.swaps.schema.insertEach s.swaps (b.swaps.map Record.row) = _
    rw [h.rows_eq, Swap.insertEach_fresh hnew]
  · rcases List.mem_append.1 hy with hy | hy
    · obtain ⟨tx, htx, hfrom⟩ := h.source y hy
      exact ⟨tx, List.mem_append_left _ htx, hfrom⟩
    · obtain ⟨tx, htx, hfrom⟩ := Swap.From.of_bucketed hx hb.swaps (hsub y hy)
      exact ⟨tx, List.mem_append_right _ htx, hfrom⟩
  · exact List.pairwise_append.2 ⟨h.unique, hnew.filter _,
      fun n hn y hy => (Swap.mem_fresh.1 hy).2 n hn⟩
  · -- the bucket of an old swap is as it was, or a fresh swap has fallen into it
    rcases List.mem_append.1 hy with hold | hy
    · by_cases hnone : ∀ z ∈ Swap.fresh swaps b.swaps, z.bucket ≠ y.bucket
      · rw [Candle.ofBucket?_append hnone]
        exact h.complete y hold
      · simp only [not_forall, not_not] at hnone
        obtain ⟨z, hz, hzy⟩ := hnone
        exact hzy ▸ hcandle (hsub z hz)
    · exact hcandle (hsub y hy)
  · by_cases htouched : ∃ y ∈ b.swaps, y.bucket = bucket
    · exact fits.candles c
        ((mem_rebuilt hsub (h.built hr hsame hx hb)).2 ⟨bucket, htouched, hc⟩)
    · rw [Candle.ofBucket?_append fun y hy hyb => htouched ⟨y, hsub y hy, hyb⟩] at hc
      exact h.candleFits bucket c hc

end Step

theorem Feeds.keeps (hr : ix.registry.DashFree) (h : ix.Feeds fed s)
    (hsame : Transaction.SameTimes fed) : ∃ swaps, ix.Keeps fed s swaps := by
  induction h with
  | opened => exact ⟨[], keeps_empty ix⟩
  | @applied fed s _ source p k asked o next txs m offset segment applied ih =>
    obtain ⟨swaps, hkeeps⟩ := ih fun a ha b hb =>
      hsame a (List.mem_append_left _ ha) b (List.mem_append_left _ hb)
    rcases pass_ends k asked with ⟨e, he, -⟩ | ⟨o', ho, hends⟩
    · rw [offset] at he
      cases he
    · cases offset.symm.trans ho
      generalize (ix.pass source p s k asked).1 = r at applied hends
      cases hends with
      | unfetched => cases applied
      | idle => cases applied
      | unprocessed => cases applied
      | unpersisted => cases applied
      | applied txs' next' segment' moved x extracted b settled fits m' =>
        cases segment.symm.trans segment'
        exact ⟨_, hkeeps.after hr hsame extracted settled fits⟩

theorem Keeps.candles_perm (h : ix.Keeps fed s swaps) {candles : List Candle}
    (hc : Candle.build? swaps = some candles) : s.candles.Perm (candles.map Record.stored) := by
  have hrows : s.candles.Nodup := h.uniqueCandles.imp fun hab heq => hab (by rw [heq])
  have hkeys : ((candles.map Record.stored).map TableId.candles.schema.keyOf).Nodup := by
    have hmap : (candles.map Record.stored).map TableId.candles.schema.keyOf =
        (candles.map Candle.uniqueKey).map fun key => some (.text key) := by
      simp only [List.map_map]
      exact List.map_congr_left fun c _ => keyOf_stored_candle c
    rw [hmap, Candle.build?_keys hc, List.map_map]
    refine List.Nodup.map (fun a b hab => ?_) (PairBucket.ofList_nodup _)
    simp only [Function.comp, Option.some.injEq, Cell.text.injEq, timeKey_inj] at hab
    cases a
    cases b
    simp_all
  rw [List.perm_ext_iff_of_nodup hrows (List.Nodup.of_map _ hkeys)]
  intro row
  rw [h.candles row, List.mem_map]
  constructor
  · rintro ⟨b, c, hb, rfl⟩
    exact ⟨c, ((Candle.build?_eq_some hc).2 c).2 ⟨b, hb⟩, rfl⟩
  · rintro ⟨c, hc', rfl⟩
    obtain ⟨b, hb⟩ := ((Candle.build?_eq_some hc).2 c).1 hc'
    exact ⟨b, c, hb, rfl⟩

theorem Keeps.candle_iff (h : ix.Keeps fed s swaps) (bucket : PairBucket) :
    (∃ row ∈ s.candles, TableId.candles.schema.keyOf row =
      some (.text (timeKey bucket.timestamp bucket.pairKey))) ↔ ∃ x ∈ swaps, x.bucket = bucket := by
  constructor
  · rintro ⟨row, hrow, hkey⟩
    obtain ⟨b, c, hb, rfl⟩ := (h.candles row).1 hrow
    rw [CandleTable.keyOf_eq hb, Option.some.injEq, Cell.text.injEq, timeKey_inj] at hkey
    obtain ⟨x, hx, rfl⟩ := Candle.bucket_of_mem hb List.mem_cons_self
    exact ⟨x, hx, congrArg₂ PairBucket.mk hkey.2 hkey.1⟩
  · rintro ⟨x, hx, rfl⟩
    obtain ⟨c, hc⟩ := h.complete x hx
    exact ⟨_, (h.candles _).2 ⟨_, c, hc, rfl⟩, CandleTable.keyOf_eq hc⟩

/-- After any batches, the table of candles holds what is built from the stored
swaps, taken in the order of writing. Every stored swap counts once and no
other swap counts. -/
theorem candles_of_stored_swaps (hr : ix.registry.DashFree) (h : ix.Feeds fed s)
    (hsame : Transaction.SameTimes fed) :
    ∃ swaps candles, s.swaps.mapM Row.swap = .ok swaps ∧
      (swaps.map Swap.uniqueKey).Nodup ∧
      Candle.build? swaps = some candles ∧
      s.candles.Perm (candles.map Record.stored) ∧
      (∀ bucket : PairBucket, (∃ row ∈ s.candles, TableId.candles.schema.keyOf row =
        some (.text (timeKey bucket.timestamp bucket.pairKey))) ↔ ∃ x ∈ swaps, x.bucket = bucket) ∧
      ∀ c ∈ candles, c.swapCount =
        (0 : Height).pull (swaps.filter fun x => x.bucket = ⟨c.pairKey, c.timestamp⟩).length := by
  obtain ⟨swaps, hkeeps⟩ := h.keeps hr hsame
  obtain ⟨candles, hcandles⟩ := Candle.exists_build? fun x hx =>
    (hkeeps.complete x hx).imp' _ fun c hc => hc
  refine ⟨swaps, candles, Store.swaps_read hkeeps.rows_eq hkeeps.fits,
    List.pairwise_map.2 hkeeps.unique, hcandles, hkeeps.candles_perm hcandles,
    hkeeps.candle_iff, fun c hc => ?_⟩
  obtain ⟨b, hb⟩ := ((Candle.build?_eq_some hcandles).2 c).1 hc
  obtain ⟨hbucket, hcount⟩ := Candle.counts_of_bucket hb
  rw [hcount, hbucket]

end Indexer

namespace Redelivered

open Sample TwoSwaps

theorem feeds_twice : indexer.Feeds [firstSwap, firstSwap] afterFirst := by
  have hsegment : chain.upTo 120 100 = .ok ⟨[firstSwap], 120⟩ := rfl
  have hpass {s : Store} (hs : s = .empty ∨ s = afterFirst) :=
    Indexer.applied_of_takeIn? [] steady hsegment (by decide) (takeIn?_first hs)
  have hstart (s : Store) : indexer.offset ⟨some 100, .idle⟩ s = .ok 100 := rfl
  have honce := Indexer.Feeds.opened.applied (chain.upTo 120) ⟨some 100, .idle⟩ querier []
    (hstart _) hsegment (by rw [Indexer.pass_of_offset (hstart _)]; exact (hpass (.inl rfl)).1)
  rw [Indexer.pass_of_offset (hstart _), (hpass (.inl rfl)).2] at honce
  have htwice := honce.applied (chain.upTo 120) ⟨some 100, .idle⟩ querier [] (hstart _) hsegment
    (by rw [Indexer.pass_of_offset (hstart _)]; exact (hpass (.inr rfl)).1)
  rwa [Indexer.pass_of_offset (hstart _), (hpass (.inr rfl)).2] at htwice

theorem dashFree : indexer.registry.DashFree := by
  intro p hp
  rw [List.mem_singleton.1 hp]
  decide

end Redelivered

namespace Indexer

open Sample TwoSwaps Redelivered

theorem redelivered_swap_counts_once :
    indexer.registry.DashFree ∧
      indexer.Feeds [firstSwap, firstSwap] afterFirst ∧
      Transaction.SameTimes [firstSwap, firstSwap] ∧
      afterFirst.swaps.length = 1 ∧
    ∃ swaps candles, afterFirst.swaps.mapM Row.swap = .ok swaps ∧
      (swaps.map Swap.uniqueKey).Nodup ∧
      Candle.build? swaps = some candles ∧
      afterFirst.candles.Perm (candles.map Record.stored) ∧
      (∀ bucket : PairBucket, (∃ row ∈ afterFirst.candles, TableId.candles.schema.keyOf row =
        some (.text (timeKey bucket.timestamp bucket.pairKey))) ↔ ∃ x ∈ swaps, x.bucket = bucket) ∧
      ∀ c ∈ candles, c.swapCount =
        (0 : Height).pull (swaps.filter fun x => x.bucket = ⟨c.pairKey, c.timestamp⟩).length := by
  have hsame : Transaction.SameTimes [firstSwap, firstSwap] := by
    simp [Transaction.SameTimes]
  exact ⟨dashFree, feeds_twice, hsame, rfl,
    candles_of_stored_swaps dashFree feeds_twice hsame⟩

end Indexer

end PoolLedger
