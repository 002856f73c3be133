import PoolLedger.Transaction

/-! Segments of the chain, and the windows of heights in which they are fetched. -/

namespace PoolLedger

/-- The transactions of some heights, and the height after them. It is the
height asked for when there is nothing new. -/
structure Segment where
  transactions : List Transaction
  next : Height

structure Window where
  first : Height
  last : Height
deriving DecidableEq

/-- At most `count` windows of `limit` heights, one after the other from
`offset` on, none that starts above `latest`. -/
def windows (offset latest limit : Height) : Nat → List Window
  | 0 => []
  | count + 1 =>
    if latest < offset then []
    else
      let last := ((offset.satAdd limit).satSub 1).smaller latest
      ⟨offset, last⟩ :: windows (last.satAdd 1) latest limit count

end PoolLedger
