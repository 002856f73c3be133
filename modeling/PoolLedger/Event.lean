import PoolLedger.Pair

/-! Events of the exchange, taken from transactions: swaps, changes of
liquidity and changes of stakes. Swaps and liquidity changes carry a key that
is the same whenever the same event is seen again. -/

namespace PoolLedger

structure Position where
  height : Height
  txIndex : Index
  msgIndex : Index
deriving DecidableEq

def Position.le (a b : Position) : Bool :=
  a.height < b.height ||
    (a.height = b.height &&
      (a.txIndex < b.txIndex || (a.txIndex = b.txIndex && a.msgIndex ≤ b.msgIndex)))

def eventKey (height : Height) (first : String) (firstAmount : Amount) (second : String)
    (secondAmount : Amount) : String :=
  toString height ++ "-" ++ first ++ "-" ++ toString firstAmount ++ "-" ++ second ++ "-" ++
    toString secondAmount

structure Swap where
  txHash : String
  offerDenom : String
  offerAmount : Amount
  askDenom : String
  returnAmount : Amount
  taxAmount : Amount
  commissionAmount : Amount
  spreadAmount : Amount
  direction : Direction
  pairAddress : String
  pairKey : String
  sender : String
  height : Height
  txIndex : Index
  msgIndex : Index
  timestamp : Timestamp
  uniqueKey : String
deriving DecidableEq

namespace Swap

def position (s : Swap) : Position := ⟨s.height, s.txIndex, s.msgIndex⟩

def baseAmount (s : Swap) : Amount :=
  match s.direction with
  | .sell => s.offerAmount
  | .buy => s.returnAmount

def quoteAmount (s : Swap) : Amount :=
  match s.direction with
  | .sell => s.returnAmount
  | .buy => s.offerAmount

def price (s : Swap) : Float :=
  if s.quoteAmount = 0 then 0.0 else s.baseAmount.toReal / s.quoteAmount.toReal

end Swap

inductive LiquidityOp
  | provide
  | withdraw
deriving DecidableEq

namespace LiquidityOp

def text : LiquidityOp → String
  | .provide => "provide"
  | .withdraw => "withdraw"

def ofText? : String → Option LiquidityOp
  | "provide" => some .provide
  | "withdraw" => some .withdraw
  | _ => none

def unknown (s : String) : String := "unknown liquidity op " ++ s

end LiquidityOp

/-- Liquidity provided or withdrawn, in the canonical order of its pair. -/
structure LiquidityChange where
  txHash : String
  baseDenom : String
  baseAmount : Amount
  quoteDenom : String
  quoteAmount : Amount
  baseReserve : Amount
  quoteReserve : Amount
  basePrice : Float
  op : LiquidityOp
  protocolFee : Amount
  share : Amount
  creator : String
  pairAddress : String
  height : Height
  txIndex : Index
  msgIndex : Index
  timestamp : Timestamp
  uniqueKey : String
deriving DecidableEq

def LiquidityChange.position (e : LiquidityChange) : Position := ⟨e.height, e.txIndex, e.msgIndex⟩

inductive StakingAction
  | bond
  | unbond
  | updateRewards
deriving DecidableEq

def StakingAction.text : StakingAction → String
  | .bond => "bond"
  | .unbond => "unbond"
  | .updateRewards => "update_rewards_per_sec"

structure StakingChange where
  action : StakingAction
  lpToken : String
  amount : Amount
  txHash : String
  height : Height
deriving DecidableEq

inductive Event
  | swap (s : Swap)
  | liquidity (e : LiquidityChange)
  | staking (e : StakingChange)
deriving DecidableEq

class Keyed (α : Type) where
  uniqueKey : α → String

instance : Keyed Swap := ⟨Swap.uniqueKey⟩
instance : Keyed LiquidityChange := ⟨LiquidityChange.uniqueKey⟩

class Timed (α : Type) where
  timestamp : α → Timestamp
  setTimestamp : α → Timestamp → α

instance : Timed Swap := ⟨Swap.timestamp, fun s t => { s with timestamp := t }⟩
instance : Timed LiquidityChange := ⟨LiquidityChange.timestamp, fun e t => { e with timestamp := t }⟩

end PoolLedger
