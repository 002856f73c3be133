import PoolLedger.Event

/-! Time buckets: each time stands for the start of its bucket, the last
multiple of the width that is not after it. -/

namespace PoolLedger

/-- The start of a bucket; none when it lies before the first time there is.
Without a positive width a time stands for itself. -/
def bucketStart? (width t : Timestamp) : Option Timestamp :=
  if width.val ≤ 0 then some t else Ranged.ofInt? (t.val - t.val % width.val)

def bucketed? {α : Type} [Timed α] (width : Timestamp) (events : List α) : Option (List α) :=
  events.mapM fun e => (bucketStart? width (Timed.timestamp e)).map (Timed.setTimestamp e)

end PoolLedger
