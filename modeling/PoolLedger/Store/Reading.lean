import PoolLedger.Bucket
import PoolLedger.Store.Basic

/-! Questions to the store. -/

namespace PoolLedger

structure LiquidityPoint where
  timestamp : Timestamp
  base : Balance
  quote : Balance
  totalShare : Balance
  height : Height
deriving DecidableEq

namespace Store

def loadCheckpoint (s : Store) : Except IndexerError (Option Height) :=
  s.checkpoint.mapM Row.height

def latestBy (places : List Nat) (rows : List Row) : Option Row :=
  (rows.mergeSort (Row.upTo places)).getLast?

def bound (h : Height) : Word := (0 : Word).pull h.val

def latestReserveBefore (s : Store) (address : String) (h : Height) :
    Except IndexerError (Option Snapshot) :=
  let rows := s.snapshots.filter fun r => r.textIs 0 address && r.integerAt 4 < (bound h).val
  (latestBy [4, 5] rows).mapM Row.snapshot

def latestReserve (s : Store) (address : String) : Except IndexerError (Option Snapshot) :=
  s.latestReserveBefore address 18446744073709551615

def inChainOrder (rows : List Row) : List Row := rows.mergeSort (Row.upTo [12, 13, 14])

def swapsInBuckets (s : Store) (buckets : List PairBucket) : Except IndexerError (List Swap) :=
  (buckets.flatMap fun b => inChainOrder (s.swaps.filter fun r =>
    r.textIs 10 b.pairKey && r.integerAt 15 = b.timestamp.val)).mapM Row.swap

def swapRowsBetween (s : Store) (pairKey : String) (lo hi : Timestamp) : List Row :=
  s.swaps.filter fun r => r.textIs 10 pairKey && r.within 15 lo hi

def swapsBetween (s : Store) (pairKey : String) (lo hi : Timestamp) :
    Except IndexerError (List Swap) :=
  (inChainOrder (s.swapRowsBetween pairKey lo hi)).mapM Row.swap

def volume (s : Store) (pairKey : String) (lo hi : Timestamp) : Except IndexerError Volume :=
  ((s.swapRowsBetween pairKey lo hi).mergeSort (Row.upTo [15])).foldlM Row.volume Volume.zero

def candlesBetween (s : Store) (pairKey : String) (lo hi : Timestamp) :
    Except IndexerError (List Candle) :=
  let rows := s.candles.filter fun r => r.textIs 0 pairKey && r.within 1 lo hi
  (rows.mergeSort (Row.upTo [1])).mapM Row.candle

/-- The record of a pair at its greatest height; of equal ones the earliest. -/
def latestApr (s : Store) (address : String) : Except IndexerError (Option AprRecord) :=
  (latestBy [1] (s.aprs.filter fun r => r.textIs 0 address).reverse).mapM Row.apr

def point (width : Timestamp) (s : Snapshot) : Except Fault LiquidityPoint :=
  (Fault.ofOption (bucketStart? width s.timestamp)).map fun t =>
    ⟨t, s.base, s.quote, s.totalShare, s.height⟩

def lastPoints (points : List LiquidityPoint) : List LiquidityPoint :=
  (Ascending.ofList (fun a b : Timestamp => a < b) (points.map LiquidityPoint.timestamp)).filterMap
    fun t => points.reverse.find? fun p => p.timestamp = t

/-- One point for each bucket with a snapshot of the pool: the last one by
height. -/
def liquiditySeries (s : Store) (address : String) (lo hi width : Timestamp) :
    Except Fault (List LiquidityPoint) :=
  if width ≤ 0 then
    .error (.failed (.invalidRequest "bucket must be a positive number of seconds"))
  else do
    let rows := s.snapshots.filter fun r => r.textIs 0 address && r.within 5 lo hi
    let points ← (rows.mergeSort (Row.upTo [4, 5])).mapM fun r => do
      point width (← Fault.ofExcept (Row.snapshot r))
    return lastPoints points

def count (s : Store) (name : String) : Except IndexerError Nat :=
  match TableId.named? name with
  | some t => .ok (s.rows t).length
  | none =>
    if name = checkpointTable then .ok s.checkpoint.toList.length
    else .error (.invalidRequest ("unknown table " ++ name))

end Store

end PoolLedger
