import PoolLedger.Distinct
import PoolLedger.Extraction
import PoolLedger.Segment
import PoolLedger.Store.Reading

/-! Following the chain. One segment at a time is fetched from the checkpoint,
all records are derived from it, and they are stored together with the next
checkpoint. When something fails the checkpoint stays, and the next pass takes
the same segment again. -/

namespace PoolLedger

inductive Phase
  | idle
  | fetching
  | processing
  | persisting
  | failed
deriving DecidableEq

namespace Phase

def all : List Phase := [.idle, .fetching, .processing, .persisting, .failed]

def text : Phase → String
  | .idle => "idle"
  | .fetching => "fetching_batch"
  | .processing => "processing"
  | .persisting => "persisting"
  | .failed => "failed"

end Phase

structure Indexer where
  registry : Registry
  initialHeight : Height
  bucketWidth : Timestamp

structure Progress where
  checkpoint : Option Height
  phase : Phase
deriving DecidableEq

def Progress.new : Progress := ⟨none, .idle⟩

structure Summary where
  first : Height
  next : Height
  transactions : Nat
  swaps : Nat
  liquidity : Nat
  staking : Nat
  snapshots : Nat
  candles : Nat
  aprs : Nat
  skipped : Nat
deriving DecidableEq

inductive Outcome
  | noNewData
  | applied (s : Summary)
deriving DecidableEq

abbrev SegmentSource := Height → Except IndexerError Segment

namespace Indexer

def latest (a b : Height × Timestamp) : Height × Timestamp :=
  if a.1 < b.1 || (a.1 = b.1 && a.2 ≤ b.2) then b else a

/-- The moment a segment stands for: that of its last transaction, or the
height before the next segment. -/
def moment (txs : List Transaction) (next : Height) : Height × Timestamp :=
  match txs.map fun tx => (tx.height, tx.timestamp) with
  | [] => (next.satSub 1, 0)
  | m :: rest => rest.foldl latest m

/-- The candles of all buckets that swaps fall into, from the stored swaps of
these buckets and the new ones that are not among them. -/
def rebuildCandles (s : Store) (swaps : List Swap) : Except Fault (List Candle) := do
  let buckets := Ascending.ofList PairBucket.lt (swaps.map Swap.bucket)
  let stored ← Fault.ofExcept (s.swapsInBuckets buckets)
  let new := swaps.filter fun n => !stored.any fun o => o.uniqueKey = n.uniqueKey
  Fault.ofOption (Candle.build? (stored ++ new))

def derive (ix : Indexer) (s : Store) (txs : List Transaction) (next : Height) (x : Extraction) :
    Asking (Except Fault (Batch × Summary)) := do
  match bucketed? ix.bucketWidth (keepLast x.swaps), bucketed? ix.bucketWidth (keepLast x.liquidity)
    with
  | some swaps, some liquidity =>
    let first := Snapshot.minHeights ix.registry swaps liquidity
    match ← Snapshot.resolveSeeds ix.registry s.latestReserveBefore first with
    | .error e => return .error (.failed e)
    | .ok seeds =>
      let snapshots := Snapshot.accumulate ix.registry seeds swaps liquidity
      match rebuildCandles s swaps with
      | .error e => return .error e
      | .ok candles =>
        let triggers := AprTriggers.collect ix.registry liquidity x.staking
        let (height, timestamp) := moment txs next
        match ← Apr.refresh ix.registry s.latestApr triggers height timestamp with
        | .error e => return .error (.failed e)
        | .ok aprs =>
          return .ok (⟨swaps, liquidity, snapshots, candles, aprs, next⟩,
            ⟨0, next, txs.length, swaps.length, liquidity.length, x.staking.length,
              snapshots.length, candles.length, aprs.length, x.skipped.length⟩)
  | _, _ => return .error .overflow

def process (ix : Indexer) (s : Store) (txs : List Transaction) (next : Height) :
    Asking (Except Fault (Batch × Summary)) := do
  let parts ← txs.mapM (Extraction.ofTransaction ix.registry)
  ix.derive s txs next (.concat parts)

def start (ix : Indexer) (s : Store) : Except IndexerError Height :=
  s.loadCheckpoint.map fun c => c.getD ix.initialHeight

structure Pass where
  result : Except Fault Outcome
  progress : Progress
  store : Store

def passFrom (ix : Indexer) (source : SegmentSource) (offset : Height) (s : Store) :
    Asking Pass := do
  match source offset with
  | .error e => return ⟨.error (.failed e), ⟨some offset, .fetching⟩, s⟩
  | .ok segment =>
    if segment.next = offset then return ⟨.ok .noNewData, ⟨some offset, .idle⟩, s⟩
    else
      match ← ix.process s segment.transactions segment.next with
      | .error f => return ⟨.error f, ⟨some offset, .processing⟩, s⟩
      | .ok (batch, summary) =>
        match s.persist batch with
        | .error e => return ⟨.error (.failed e), ⟨some offset, .persisting⟩, s⟩
        | .ok s' =>
          return ⟨.ok (.applied { summary with first := offset }), ⟨some segment.next, .idle⟩, s'⟩

/-- Fetches, processes and stores one segment. -/
def pass (ix : Indexer) (source : SegmentSource) (p : Progress) (s : Store) : Asking Pass :=
  match p.checkpoint with
  | some offset => ix.passFrom source offset s
  | none =>
    match ix.start s with
    | .error e => return ⟨.error (.failed e), p, s⟩
    | .ok offset => ix.passFrom source offset s

/-- Passes until one brings nothing new or fails, at most `limit` of them. Only
a value out of range ends the run with a fault. -/
def runFrom (ix : Indexer) (source : SegmentSource) : Nat → Progress → Store →
    Asking (Except Fault Unit × Store)
  | 0, _, s => return (.ok (), s)
  | limit + 1, p, s => do
    let r ← ix.pass source p s
    match r.result with
    | .ok (.applied _) => ix.runFrom source limit r.progress r.store
    | .ok .noNewData => return (.ok (), r.store)
    | .error (.failed _) => return (.ok (), r.store)
    | .error .overflow => return (.error .overflow, r.store)

def run (ix : Indexer) (source : SegmentSource) (limit : Nat) (s : Store) :
    Asking (Except Fault Unit × Store) :=
  match ix.start s with
  | .error e => return (.error (.failed e), s)
  | .ok offset => ix.runFrom source limit ⟨some offset, .idle⟩ s

end Indexer

end PoolLedger
