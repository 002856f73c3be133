import PoolLedger.Event

/-! One event per key. When an event is reported more than once, the last
report counts. -/

namespace PoolLedger

variable {α : Type} [Keyed α]

/-- The records after which no record has the same key, in their order. -/
def keepLast : List α → List α
  | [] => []
  | a :: rest =>
    if rest.any fun b => Keyed.uniqueKey b = Keyed.uniqueKey a then keepLast rest
    else a :: keepLast rest

end PoolLedger
