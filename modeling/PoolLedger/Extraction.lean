import PoolLedger.Event
import PoolLedger.Log
import PoolLedger.Message
import PoolLedger.Query
import PoolLedger.Reserves

/-! Events from transactions. What cannot be read is skipped with a reason and
never stops the rest. A change of liquidity asks for its pool at its height;
without an answer its reserves and its fee are zero. -/

namespace PoolLedger

inductive Skip
  | failedTransaction (code : Index)
  | undecodableTransaction (detail : String)
  | unparseableLog
  | unparseableMessage (msg : Nat)
  | missingLog (msg : Nat)
  | missingSwapAttributes (msg : Nat)
  | malformedSwapAttributes (msg : Nat)
  | malformedLiquidityAttributes (msg : Nat)
  | noMatchingPair (first second : String)
deriving DecidableEq

structure Extraction where
  events : List Event
  skipped : List Skip
deriving DecidableEq

namespace Extraction

def empty : Extraction := ⟨[], []⟩
def event (e : Event) : Extraction := ⟨[e], []⟩
def skip (s : Skip) : Extraction := ⟨[], [s]⟩

def append (a b : Extraction) : Extraction := ⟨a.events ++ b.events, a.skipped ++ b.skipped⟩

instance : Append Extraction := ⟨append⟩

def concat (parts : List Extraction) : Extraction :=
  ⟨parts.flatMap Extraction.events, parts.flatMap Extraction.skipped⟩

def swaps (x : Extraction) : List Swap :=
  x.events.filterMap fun
    | .swap s => some s
    | _ => none

def liquidity (x : Extraction) : List LiquidityChange :=
  x.events.filterMap fun
    | .liquidity e => some e
    | _ => none

def staking (x : Extraction) : List StakingChange :=
  x.events.filterMap fun
    | .staking e => some e
    | _ => none

def messageIndex (msg : Nat) : Index := (0 : Index).pull msg

def basePrice (base quote : Amount) : Float :=
  if base = 0 then 0.0 else quote.toReal / base.toReal

def swapOf (tx : Transaction) (sender : String) (msg : Nat) (hop : SwapHop) (pair : Pair)
    (direction : Direction) : Swap where
  txHash := tx.hash
  offerDenom := hop.offerAsset
  offerAmount := hop.offerAmount
  askDenom := hop.askAsset
  returnAmount := hop.returnAmount
  taxAmount := hop.taxAmount
  commissionAmount := hop.commissionAmount
  spreadAmount := hop.spreadAmount
  direction := direction
  pairAddress := pair.address
  pairKey := pair.key
  sender := sender
  height := tx.height
  txIndex := tx.index
  msgIndex := messageIndex msg
  timestamp := tx.timestamp
  uniqueKey := eventKey tx.height hop.offerAsset hop.offerAmount hop.askAsset hop.returnAmount

def ofHop (r : Registry) (tx : Transaction) (sender : String) (msg : Nat) (hop : SwapHop) :
    Extraction :=
  match r.direction? hop.offerAsset hop.askAsset with
  | some (pair, direction) => event (.swap (swapOf tx sender msg hop pair direction))
  | none => skip (.noMatchingPair hop.offerAsset hop.askAsset)

def ofSwaps (r : Registry) (tx : Transaction) (sender : String) (msg : Nat) (entry : LogEntry) :
    Extraction :=
  match entry.swapHops with
  | .ok hops => concat (hops.map (ofHop r tx sender msg))
  | .error .missing => skip (.missingSwapAttributes msg)
  | .error .malformed => skip (.malformedSwapAttributes msg)

def reservesAt (pair : Pair) (address : String) (height : Height) : Asking Reserves := do
  match ← ask (.pool address (some height)) with
  | .ok report => return .ofReport pair report
  | .error _ => return .none

def actionOf : LiquidityOp → LiquidityAction
  | .provide => .provide
  | .withdraw => .withdraw

def liquidityOf (tx : Transaction) (creator : String) (msg : Nat) (op : LiquidityOp)
    (pair : Pair) (address : String) (base quote share : Amount) (pool : Reserves) :
    LiquidityChange where
  txHash := tx.hash
  baseDenom := pair.base.denom
  baseAmount := base
  quoteDenom := pair.quote.denom
  quoteAmount := quote
  baseReserve := pool.base
  quoteReserve := pool.quote
  basePrice := basePrice base quote
  op := op
  protocolFee := pool.fee pair share
  share := share
  creator := creator
  pairAddress := address
  height := tx.height
  txIndex := tx.index
  msgIndex := messageIndex msg
  timestamp := tx.timestamp
  uniqueKey := eventKey tx.height pair.base.denom base pair.quote.denom quote

def ofGroup (r : Registry) (tx : Transaction) (creator : String) (msg : Nat) (op : LiquidityOp)
    (sent : Option Amount) (g : LiquidityGroup) : Asking Extraction :=
  match r.find? g.first.2 g.second.2 with
  | none => return skip (.noMatchingPair g.first.2 g.second.2)
  | some (pair, orientation) => do
    let (base, quote) :=
      match orientation with
      | .canonical => (g.first.1, g.second.1)
      | .reversed => (g.second.1, g.first.1)
    let address := if g.pairAddress = "" then pair.address else g.pairAddress
    let share := (g.share.or sent).getD 0
    let pool ← reservesAt pair address tx.height
    return event (.liquidity (liquidityOf tx creator msg op pair address base quote share pool))

def ofLiquidity (r : Registry) (tx : Transaction) (creator : String) (msg : Nat)
    (op : LiquidityOp) (sent : Option Amount) (entry : LogEntry) : Asking Extraction :=
  match entry.liquidityGroups? (actionOf op) with
  | none | some [] => return skip (.malformedLiquidityAttributes msg)
  | some groups => do
    return concat (← groups.mapM (ofGroup r tx creator msg op sent))

def ofStaking (tx : Transaction) (action : StakingAction) (token : String) (amount : Amount) :
    Extraction :=
  event (.staking ⟨action, token, amount, tx.hash, tx.height⟩)

def ofMessage (r : Registry) (tx : Transaction) (entry : Option LogEntry) (msg : Nat)
    (e : Execution) : Asking Extraction :=
  match Message.ofExecution? e with
  | none => return skip (.unparseableMessage msg)
  | some .other => return empty
  | some (.bond token amount) => return ofStaking tx .bond token amount
  | some (.unbond token amount) => return ofStaking tx .unbond token amount
  | some (.updateRewards token) => return ofStaking tx .updateRewards token 0
  | some .swap =>
    match entry with
    | some entry => return ofSwaps r tx e.sender msg entry
    | none => return skip (.missingLog msg)
  | some .provideLiquidity =>
    match entry with
    | some entry => ofLiquidity r tx e.sender msg .provide none entry
    | none => return skip (.missingLog msg)
  | some (.withdrawLiquidity _ share) =>
    match entry with
    | some entry => ofLiquidity r tx e.sender msg .withdraw (some share) entry
    | none => return skip (.missingLog msg)

/-- Events and skips of a transaction, message by message. -/
def ofTransaction (r : Registry) (tx : Transaction) : Asking Extraction :=
  if tx.code ≠ 0 then return skip (.failedTransaction tx.code)
  else
    match readExecutions tx.bytes with
    | .error e => return skip (.undecodableTransaction e.message)
    | .ok executions =>
      match Log.read? tx.rawLog with
      | none => return skip .unparseableLog
      | some log => do
        return concat (← executions.mapM fun (msg, e) =>
          ofMessage r tx (Log.entryOf? log msg) msg e)

end Extraction

end PoolLedger
