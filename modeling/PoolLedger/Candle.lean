import PoolLedger.Ascending
import PoolLedger.Snapshot

/-! Candles: opening, highest, lowest and closing price of a pair over a time
bucket, with the volume moved. And volumes of pairs over any swaps. -/

namespace PoolLedger

structure Candle where
  pairKey : String
  timestamp : Timestamp
  opening : Float
  high : Float
  low : Float
  close : Float
  volume : Amount
  swapCount : Height
  uniqueKey : String
deriving DecidableEq

instance : Keyed Candle := ⟨Candle.uniqueKey⟩

structure PairBucket where
  pairKey : String
  timestamp : Timestamp
deriving DecidableEq

def PairBucket.lt (a b : PairBucket) : Bool :=
  a.pairKey < b.pairKey || (a.pairKey = b.pairKey && a.timestamp < b.timestamp)

def Swap.bucket (s : Swap) : PairBucket := ⟨s.pairKey, s.timestamp⟩

namespace Candle

def checkedSum (xs : List Amount) : Option Amount := xs.foldlM Ranged.checkedAdd 0

/-- The candle of swaps in chain order; none when their volume is too large. -/
def ofOrdered? (b : PairBucket) (first : Swap) (rest : List Swap) : Option Candle := do
  let prices := rest.map Swap.price
  let volume ← checkedSum ((first :: rest).map Swap.baseAmount)
  return {
    pairKey := b.pairKey
    timestamp := b.timestamp
    opening := first.price
    high := prices.foldl Real.larger first.price
    low := prices.foldl Real.smaller first.price
    close := prices.getLast?.getD first.price
    volume := volume
    swapCount := (0 : Height).pull (rest.length + 1)
    uniqueKey := timeKey b.timestamp b.pairKey }

def inChainOrder (swaps : List Swap) : List Swap :=
  swaps.mergeSort fun a b => a.position.le b.position

def ofBucket? (swaps : List Swap) (b : PairBucket) : Option (List Candle) :=
  match inChainOrder (swaps.filter fun s => s.bucket = b) with
  | [] => some []
  | first :: rest => (ofOrdered? b first rest).map ([·])

def build? (swaps : List Swap) : Option (List Candle) :=
  ((Ascending.ofList PairBucket.lt (swaps.map Swap.bucket)).mapM (ofBucket? swaps)).map List.flatten

end Candle

structure Volume where
  base : Amount
  quote : Amount
  swaps : Height
deriving DecidableEq

namespace Volume

def zero : Volume := ⟨0, 0, 0⟩

def add (v : Volume) (s : Swap) : Volume :=
  ⟨v.base.satAdd s.baseAmount, v.quote.satAdd s.quoteAmount, v.swaps.satAdd 1⟩

def ofSwaps (swaps : List Swap) : Volume := swaps.foldl add zero

def byPair (swaps : List Swap) : List (String × Volume) :=
  (Ascending.ofList (fun a b : String => a < b) (swaps.map Swap.pairKey)).map fun k =>
    (k, ofSwaps (swaps.filter fun s => s.pairKey = k))

end Volume

end PoolLedger
