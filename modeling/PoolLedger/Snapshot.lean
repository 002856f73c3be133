import PoolLedger.Ascending
import PoolLedger.Event
import PoolLedger.Query
import PoolLedger.Reserves

/-! Running reserves of pools. Starting from a seed, the events of a pool are
applied in chain order; the last state in each time bucket is its snapshot. -/

namespace PoolLedger

structure Snapshot where
  pairAddress : String
  base : Balance
  quote : Balance
  totalShare : Balance
  height : Height
  timestamp : Timestamp
  uniqueKey : String
deriving DecidableEq

def timeKey (t : Timestamp) (name : String) : String := toString t ++ "-" ++ name

def heightKey (h : Height) (name : String) : String := toString h ++ "-" ++ name

def Snapshot.of (pairAddress : String) (base quote totalShare : Balance) (height : Height)
    (timestamp : Timestamp) : Snapshot :=
  ⟨pairAddress, base, quote, totalShare, height, timestamp, timeKey timestamp pairAddress⟩

instance : Keyed Snapshot := ⟨Snapshot.uniqueKey⟩

structure Delta where
  base : Balance
  quote : Balance
deriving DecidableEq

def Balance.neg (b : Balance) : Balance := b.pull (-b.val)

def Swap.delta (s : Swap) : Delta :=
  match s.direction with
  | .sell => ⟨s.offerAmount.toBalance, Balance.neg s.returnAmount.toBalance⟩
  | .buy => ⟨Balance.neg s.returnAmount.toBalance, s.offerAmount.toBalance⟩

def LiquidityChange.delta (e : LiquidityChange) : Delta :=
  match e.op with
  | .provide => ⟨e.baseAmount.toBalance, e.quoteAmount.toBalance⟩
  | .withdraw => ⟨Balance.neg e.baseAmount.toBalance, Balance.neg e.quoteAmount.toBalance⟩

/-- The total share after a change of the base reserve by `delta`. It follows
the base reserve in proportion, or the share itself when the pool is empty. -/
def LiquidityChange.nextTotalShare (e : LiquidityChange) (total base delta : Balance) : Balance :=
  if 0 < total ∧ 0 < base then total.satAdd ((total.satMul delta).quot base)
  else
    match e.op with
    | .provide => total.satAdd e.share.toBalance
    | .withdraw => total.satSub e.share.toBalance

inductive PoolChange
  | swap (s : Swap)
  | liquidity (e : LiquidityChange)

namespace PoolChange

def pairAddress : PoolChange → String
  | .swap s => s.pairAddress
  | .liquidity e => e.pairAddress

def position : PoolChange → Position
  | .swap s => s.position
  | .liquidity e => e.position

def timestamp : PoolChange → Timestamp
  | .swap s => s.timestamp
  | .liquidity e => e.timestamp

def delta : PoolChange → Delta
  | .swap s => s.delta
  | .liquidity e => e.delta

def all (swaps : List Swap) (liquidity : List LiquidityChange) : List PoolChange :=
  swaps.map .swap ++ liquidity.map .liquidity

/-- Chain order; changes at one position keep their order. -/
def inChainOrder (changes : List PoolChange) : List PoolChange :=
  changes.mergeSort fun a b => a.position.le b.position

end PoolChange

structure PoolState where
  base : Balance
  quote : Balance
  totalShare : Balance
deriving DecidableEq

namespace PoolState

def empty : PoolState := ⟨0, 0, 0⟩

def ofSnapshot (s : Snapshot) : PoolState := ⟨s.base, s.quote, s.totalShare⟩

def ofReserves (r : Reserves) : PoolState :=
  ⟨r.base.toBalance, r.quote.toBalance, r.totalShare.toBalance⟩

def apply (s : PoolState) (c : PoolChange) : PoolState :=
  let d := c.delta
  let total :=
    match c with
    | .swap _ => s.totalShare
    | .liquidity e => e.nextTotalShare s.totalShare s.base d.base
  ⟨s.base.satAdd d.base, s.quote.satAdd d.quote, total⟩

def history (address : String) : PoolState → List PoolChange → List Snapshot
  | _, [] => []
  | s, c :: rest =>
    let s' := s.apply c
    .of address s'.base s'.quote s'.totalShare c.position.height c.timestamp ::
      history address s' rest

end PoolState

abbrev Seeds := List (String × Snapshot)

def Seeds.find? (seeds : Seeds) (address : String) : Option Snapshot :=
  (seeds.reverse.find? fun s => s.1 = address).map Prod.snd

namespace Snapshot

def lastPerTime (history : List Snapshot) : List Snapshot :=
  (Ascending.ofList (fun a b : Timestamp => a < b) (history.map Snapshot.timestamp)).filterMap
    fun t => history.reverse.find? fun s => s.timestamp = t

def ofPool (seeds : Seeds) (address : String) (changes : List PoolChange) : List Snapshot :=
  let start := ((seeds.find? address).map PoolState.ofSnapshot).getD .empty
  lastPerTime (start.history address (PoolChange.inChainOrder changes))

/-- The snapshots of all registered pools, by address and time. -/
def accumulate (r : Registry) (seeds : Seeds) (swaps : List Swap)
    (liquidity : List LiquidityChange) : List Snapshot :=
  let changes := (PoolChange.all swaps liquidity).filter fun c =>
    (r.byAddress? c.pairAddress).isSome
  let addresses := Ascending.ofList (fun a b : String => a < b) (changes.map PoolChange.pairAddress)
  addresses.flatMap fun a => ofPool seeds a (changes.filter fun c => c.pairAddress = a)

def minHeights (r : Registry) (swaps : List Swap) (liquidity : List LiquidityChange) :
    List (String × Height) :=
  let changes := (PoolChange.all swaps liquidity).filter fun c =>
    (r.byAddress? c.pairAddress).isSome
  let addresses := Ascending.ofList (fun a b : String => a < b) (changes.map PoolChange.pairAddress)
  addresses.filterMap fun a =>
    match (changes.filter fun c => c.pairAddress = a).map fun c => c.position.height with
    | [] => none
    | h :: hs => some (a, hs.foldl Ranged.smaller h)

def seedHeight (first : Height) : Height := first.satSub 1

/-- The seed of a pool without history: what its contract held before its
first event, or nothing. -/
def coldSeed (r : Registry) (address : String) (first : Height) :
    Asking (Option (String × Snapshot)) := do
  let height := seedHeight first
  let answer ← ask (.pool address (some height))
  match r.byAddress? address with
  | none => return none
  | some pair =>
    let reserves :=
      match answer with
      | .ok report => Reserves.ofReport pair report
      | .error _ => Reserves.none
    let s := PoolState.ofReserves reserves
    return some (address, .of address s.base s.quote s.totalShare height 0)

/-- The seeds of pools by their first heights: the stored state before that
height, as `stored` tells it, or else a cold seed. -/
def resolveSeeds (r : Registry) (stored : String → Height → Except IndexerError (Option Snapshot))
    (first : List (String × Height)) : Asking (Except IndexerError Seeds) := do
  match first.mapM fun (a, h) => (stored a h).map fun s => (a, h, s) with
  | .error e => return .error e
  | .ok found =>
    let warm := found.filterMap fun (a, _, s) => s.map fun s => (a, s)
    let cold ← (found.filter fun (_, _, s) => s.isNone).mapM fun (a, h, _) => coldSeed r a h
    return .ok (warm ++ cold.filterMap id)

end Snapshot

end PoolLedger
