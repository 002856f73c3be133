import PoolLedger.Apr
import PoolLedger.Candle
import PoolLedger.Store.Schema

/-! Records as rows. Every record has a table, and reading its row gives it back.
A row may have come from elsewhere, so reading can fail. -/

namespace PoolLedger

inductive TableId
  | swaps
  | liquidity
  | snapshots
  | candles
  | aprs
  | pairs
deriving DecidableEq

namespace TableId

def all : List TableId := [.swaps, .liquidity, .snapshots, .candles, .aprs, .pairs]

def integer (name : String) : Column := ⟨name, .integer⟩
def real (name : String) : Column := ⟨name, .real⟩
def text (name : String) : Column := ⟨name, .text⟩

def schema : TableId → TableSchema
  | .swaps => {
      name := "swap_ops_data"
      columns := [text "tx_hash", text "offer_denom", integer "offer_amount", text "ask_denom",
        integer "return_amount", integer "tax_amount", integer "commission_amount",
        integer "spread_amount", text "direction", text "pair_addr", text "pair_key",
        text "sender", integer "tx_height", integer "tx_index", integer "msg_index",
        integer "timestamp", text "unique_key"]
      unique := "unique_key"
      conflict := .ignore }
  | .liquidity => {
      name := "lp_ops_data"
      columns := [text "tx_hash", text "base_denom", integer "base_amount", text "quote_denom",
        integer "quote_amount", integer "base_reserve", integer "quote_reserve",
        real "base_price", text "op_type", integer "protocol_fee", integer "share",
        text "creator", text "pair_addr", integer "tx_height", integer "tx_index",
        integer "msg_index", integer "timestamp", text "unique_key"]
      unique := "unique_key"
      conflict := .ignore }
  | .snapshots => {
      name := "pool_amount_history"
      columns := [text "pair_addr", integer "offer_pool_amount", integer "ask_pool_amount",
        integer "total_share", integer "height", integer "timestamp", text "unique_key"]
      unique := "unique_key"
      conflict := .replace }
  | .candles => {
      name := "swap_ohlcv"
      columns := [text "pair", integer "timestamp", real "open", real "high", real "low",
        real "close", integer "volume", integer "swap_count", text "unique_key"]
      unique := "unique_key"
      conflict := .replace }
  | .aprs => {
      name := "pool_apr"
      columns := [text "pair_addr", integer "height", integer "total_supply",
        integer "total_bond_amount", text "reward_per_sec", real "apr", integer "timestamp",
        text "unique_key"]
      unique := "unique_key"
      conflict := .replace }
  | .pairs => {
      name := "pair_infos"
      columns := [text "pair_addr", text "liquidity_addr", text "oracle_addr", text "base_denom",
        text "quote_denom", text "symbols", integer "base_decimals", integer "quote_decimals",
        text "commission_rate"]
      unique := "pair_addr"
      conflict := .replace }

def name (t : TableId) : String := t.schema.name

def named? (name : String) : Option TableId := all.find? fun t => t.name = name

end TableId

def checkpointTable : String := "sync_checkpoint"

class Record (α : Type) where
  table : TableId
  row : α → Row

instance : Record Swap where
  table := .swaps
  row s := [.text s.txHash, .text s.offerDenom, .ofAmount s.offerAmount, .text s.askDenom,
    .ofAmount s.returnAmount, .ofAmount s.taxAmount, .ofAmount s.commissionAmount,
    .ofAmount s.spreadAmount, .text s.direction.text, .text s.pairAddress, .text s.pairKey,
    .text s.sender, .ofHeight s.height, .ofIndex s.txIndex, .ofIndex s.msgIndex,
    .integer s.timestamp, .text s.uniqueKey]

instance : Record LiquidityChange where
  table := .liquidity
  row e := [.text e.txHash, .text e.baseDenom, .ofAmount e.baseAmount, .text e.quoteDenom,
    .ofAmount e.quoteAmount, .ofAmount e.baseReserve, .ofAmount e.quoteReserve,
    .real e.basePrice, .text e.op.text, .ofAmount e.protocolFee, .ofAmount e.share,
    .text e.creator, .text e.pairAddress, .ofHeight e.height, .ofIndex e.txIndex,
    .ofIndex e.msgIndex, .integer e.timestamp, .text e.uniqueKey]

instance : Record Snapshot where
  table := .snapshots
  row s := [.text s.pairAddress, .ofBalance s.base, .ofBalance s.quote, .ofBalance s.totalShare,
    .ofHeight s.height, .integer s.timestamp, .text s.uniqueKey]

instance : Record Candle where
  table := .candles
  row c := [.text c.pairKey, .integer c.timestamp, .real c.opening, .real c.high, .real c.low,
    .real c.close, .ofAmount c.volume, .ofHeight c.swapCount, .text c.uniqueKey]

instance : Record AprRecord where
  table := .aprs
  row r := [.text r.pairAddress, .ofHeight r.height, .ofAmount r.totalSupply,
    .ofAmount r.totalBond, .text r.rewards, .real r.apr, .integer r.timestamp, .text r.uniqueKey]

instance : Record Pair where
  table := .pairs
  row p := [.text p.address, .text p.lpToken, .text (p.oracle.getD ""), .text p.base.denom,
    .text p.quote.denom, .text p.symbol, .ofIndex p.baseDecimals, .ofIndex p.quoteDecimals,
    .text p.commissionRate]

namespace Row

def malformed {α : Type} : Except IndexerError α :=
  .error (.persistence "row does not fit its record")

def amount (n : Word) : Except IndexerError Amount :=
  match (Ranged.ofInt? n.val : Option Amount) with
  | some a => .ok a
  | none => .error (.persistence ("negative amount " ++ toString n ++ " in store"))

def height (n : Word) : Except IndexerError Height :=
  match (Ranged.ofInt? n.val : Option Height) with
  | some h => .ok h
  | none => .error (.persistence ("negative height " ++ toString n ++ " in store"))

def index (n : Word) : Except IndexerError Index :=
  match (Ranged.ofInt? n.val : Option Index) with
  | some i => .ok i
  | none => .error (.persistence ("index " ++ toString n ++ " out of range in store"))

def balance (n : Word) : Balance := (0 : Balance).pull n.val

def direction (s : String) : Except IndexerError Direction :=
  match Direction.ofText? s with
  | some d => .ok d
  | none => .error (.persistence (Direction.unknown s))

def swap : Row → Except IndexerError Swap
  | [.text txHash, .text offerDenom, .integer offerAmount, .text askDenom, .integer returnAmount,
      .integer taxAmount, .integer commissionAmount, .integer spreadAmount, .text side,
      .text pairAddress, .text pairKey, .text sender, .integer txHeight, .integer txIndex,
      .integer msgIndex, .integer timestamp, .text uniqueKey] => do
    return {
      txHash := txHash
      offerDenom := offerDenom
      offerAmount := ← amount offerAmount
      askDenom := askDenom
      returnAmount := ← amount returnAmount
      taxAmount := ← amount taxAmount
      commissionAmount := ← amount commissionAmount
      spreadAmount := ← amount spreadAmount
      direction := ← direction side
      pairAddress := pairAddress
      pairKey := pairKey
      sender := sender
      height := ← height txHeight
      txIndex := ← index txIndex
      msgIndex := ← index msgIndex
      timestamp := timestamp
      uniqueKey := uniqueKey }
  | _ => malformed

def volume (v : Volume) : Row → Except IndexerError Volume
  | _ :: _ :: .integer offerAmount :: _ :: .integer returnAmount :: _ :: _ :: _ :: .text side :: _ =>
    do
    let offer ← amount offerAmount
    let returned ← amount returnAmount
    match ← direction side with
    | .sell => return ⟨v.base.satAdd offer, v.quote.satAdd returned, v.swaps.satAdd 1⟩
    | .buy => return ⟨v.base.satAdd returned, v.quote.satAdd offer, v.swaps.satAdd 1⟩
  | _ => malformed

def snapshot : Row → Except IndexerError Snapshot
  | [.text pairAddress, .integer base, .integer quote, .integer totalShare, .integer h,
      .integer timestamp, .text uniqueKey] => do
    return ⟨pairAddress, balance base, balance quote, balance totalShare, ← height h, timestamp,
      uniqueKey⟩
  | _ => malformed

def candle : Row → Except IndexerError Candle
  | [.text pairKey, .integer timestamp, .real opening, .real high, .real low, .real close,
      .integer volume, .integer swapCount, .text uniqueKey] => do
    return ⟨pairKey, timestamp, opening, high, low, close, ← amount volume, ← height swapCount,
      uniqueKey⟩
  | _ => malformed

def apr : Row → Except IndexerError AprRecord
  | [.text pairAddress, .integer h, .integer totalSupply, .integer totalBond, .text rewards,
      .real apr, .integer timestamp, .text uniqueKey] => do
    return ⟨pairAddress, ← height h, ← amount totalSupply, ← amount totalBond, rewards, apr,
      timestamp, uniqueKey⟩
  | _ => malformed

def integerAt (row : Row) (i : Nat) : Int :=
  match row[i]? with
  | some (.integer n) => n.val
  | _ => 0

def textIs (row : Row) (i : Nat) (s : String) : Bool := row[i]? = some (.text s)

def within (row : Row) (i : Nat) (lo hi : Timestamp) : Bool :=
  lo.val ≤ row.integerAt i && row.integerAt i ≤ hi.val

def upTo (places : List Nat) (a b : Row) : Bool :=
  match places with
  | [] => true
  | i :: rest =>
    a.integerAt i < b.integerAt i || (a.integerAt i = b.integerAt i && upTo rest a b)

end Row

end PoolLedger
