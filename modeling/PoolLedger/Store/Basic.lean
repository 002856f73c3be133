import PoolLedger.Store.Record

/-! The store: tables of records, each in the order in which its rows were
written, and the checkpoint. A batch is written as a whole or not at all. -/

namespace PoolLedger

structure Store where
  swaps : List Row
  liquidity : List Row
  snapshots : List Row
  candles : List Row
  aprs : List Row
  pairs : List Row
  checkpoint : Option Word
deriving DecidableEq

structure Batch where
  swaps : List Swap
  liquidity : List LiquidityChange
  snapshots : List Snapshot
  candles : List Candle
  aprs : List AprRecord
  checkpoint : Height
deriving DecidableEq

namespace Store

def empty : Store := ⟨[], [], [], [], [], [], none⟩

def reopen (inMemory : Bool) (s : Store) : Store := if inMemory then empty else s

def rows (s : Store) : TableId → List Row
  | .swaps => s.swaps
  | .liquidity => s.liquidity
  | .snapshots => s.snapshots
  | .candles => s.candles
  | .aprs => s.aprs
  | .pairs => s.pairs

def setRows (s : Store) (t : TableId) (rows : List Row) : Store :=
  match t with
  | .swaps => { s with swaps := rows }
  | .liquidity => { s with liquidity := rows }
  | .snapshots => { s with snapshots := rows }
  | .candles => { s with candles := rows }
  | .aprs => { s with aprs := rows }
  | .pairs => { s with pairs := rows }

theorem rows_setRows (s : Store) (t u : TableId) (rows : List Row) :
    (s.setRows t rows).rows u = if u = t then rows else s.rows u := by
  cases t <;> cases u <;> rfl

def checkRows (t : TableId) (rows : List Row) : Except IndexerError (List Row) :=
  rows.mapM fun row => (t.schema.validate row).map fun _ => row

def encode {α : Type} [Record α] (records : List α) : Except IndexerError (List Row) :=
  checkRows (Record.table α) (records.map Record.row)

def write (s : Store) (t : TableId) (rows : List Row) : Store × Nat :=
  let (rows, written) := t.schema.insertRows (s.rows t) rows
  (s.setRows t rows, written)

def insertRows (s : Store) (t : TableId) (rows : List Row) : Except IndexerError (Store × Nat) :=
  (checkRows t rows).map (s.write t)

def insert {α : Type} [Record α] (s : Store) (records : List α) :
    Except IndexerError (Store × Nat) :=
  s.insertRows (Record.table α) (records.map Record.row)

def insertPairs (s : Store) (pairs : List Pair) : Except IndexerError (Store × Nat) :=
  s.insert (pairs.filter fun p => p.address ≠ "")

def saveCheckpoint (s : Store) (h : Height) : Except IndexerError Store :=
  match (Ranged.ofInt? h.val : Option Word) with
  | some w => .ok { s with checkpoint := some w }
  | none => .error (.internal ("checkpoint " ++ toString h ++ " out of range"))

/-- Writes every row of a batch and then the checkpoint. All rows are checked
before the first is written, and a failure leaves nothing behind. -/
def persist (s : Store) (b : Batch) : Except IndexerError Store := do
  let swaps ← encode b.swaps
  let liquidity ← encode b.liquidity
  let snapshots ← encode b.snapshots
  let candles ← encode b.candles
  let aprs ← encode b.aprs
  let s := (s.write .swaps swaps).1
  let s := (s.write .liquidity liquidity).1
  let s := (s.write .snapshots snapshots).1
  let s := (s.write .candles candles).1
  let s := (s.write .aprs aprs).1
  s.saveCheckpoint b.checkpoint

end Store

end PoolLedger
