import PoolLedger.Proofs.Store.Table
import PoolLedger.Proofs.Traverse
import PoolLedger.Store.Basic

/-! Records and their rows. A record fits its table when every integer in it is
a word and every real is finite, and then its row reads back as the record. -/

namespace PoolLedger

def IsWord (n : Int) : Prop := -9223372036854775808 ≤ n ∧ n ≤ 9223372036854775807

namespace Cell

theorem ofInt_of_isWord {n : Int} (h : IsWord n) : ofInt n = .integer ⟨n, h.1, h.2⟩ := by
  have hw : (Ranged.ofInt? n : Option Word) = some ⟨n, h.1, h.2⟩ :=
    Ranged.ofInt?_eq_some_iff.2 rfl
  rw [ofInt, hw]

theorem fits_ofInt {n : Int} : (ofInt n).fits .integer = true ↔ IsWord n := by
  by_cases h : IsWord n
  · simp [ofInt_of_isWord h, fits, h]
  · have hn : (Ranged.ofInt? n : Option Word) = none := dif_neg h
    simp [ofInt, hn, fits, h]

@[simp] theorem fits_text (s : String) : (text s).fits .text = true := rfl
@[simp] theorem fits_integer (n : Word) : (integer n).fits .integer = true := rfl
@[simp] theorem fits_real (x : Float) : (real x).fits .real = Real.isFinite x := rfl
@[simp] theorem stored_text (s : String) : (text s).stored = text s := rfl
@[simp] theorem stored_integer (n : Word) : (integer n).stored = integer n := rfl

@[simp] theorem stored_ofInt (n : Int) : (ofInt n).stored = ofInt n := by
  unfold ofInt
  split <;> rfl

@[simp] theorem fits_ofAmount {a : Amount} : (ofAmount a).fits .integer = true ↔ IsWord a.val := fits_ofInt

@[simp] theorem fits_ofBalance {b : Balance} : (ofBalance b).fits .integer = true ↔ IsWord b.val :=
  fits_ofInt

@[simp] theorem fits_ofHeight {h : Height} : (ofHeight h).fits .integer = true ↔ IsWord h.val := fits_ofInt

theorem isWord_index (i : Index) : IsWord i.val := by
  have := i.lo_le
  have := i.le_hi
  constructor <;> omega

@[simp] theorem fits_ofIndex (i : Index) : (ofIndex i).fits .integer = true := fits_ofInt.2 (isWord_index i)

end Cell

namespace Record

variable {α : Type} [Record α]

def stored (a : α) : Row := (Record.row a).stored

theorem map_stored_row (records : List α) :
    (records.map Record.row).map Row.stored = records.map stored := by
  rw [List.map_map]
  rfl

/-- The row of a record passes the check of its table. -/
def Fits (a : α) : Prop := (Record.table α).schema.validate (Record.row a) = .ok ()

end Record

theorem TableSchema.validate_ok {s : TableSchema} {row : Row} :
    s.validate row = .ok () ↔
      row.length = s.columns.length ∧ ∀ c ∈ s.columns.zip row, c.2.fits c.1.kind = true := by
  unfold validate mismatch?
  by_cases hl : row.length = s.columns.length
  · rw [if_neg (by simpa using hl)]
    split
    · rename_i m hm
      obtain ⟨c, hc, hcm⟩ := List.exists_of_findSome?_eq_some hm
      simp only [reduceCtorEq, false_iff, not_and]
      intro _ h
      simp [h c hc] at hcm
    · rename_i hm
      rw [List.findSome?_eq_none_iff] at hm
      exact ⟨fun _ => ⟨hl, fun c hc => by simpa using hm c hc⟩, fun _ => rfl⟩
  · rw [if_pos (by simpa using hl)]
    simp [hl]

namespace Store

variable {α : Type} [Record α]

theorem encode_ok {records : List α} {rows : List Row} :
    encode records = .ok rows ↔ rows = records.map Record.row ∧ ∀ a ∈ records, Record.Fits a := by
  have hf (row row' : Row) (h : ((Record.table α).schema.validate row).map (fun _ => row) = .ok row') :
      row' = row := by
    cases hv : (Record.table α).schema.validate row <;> simp_all [Except.map]
  rw [encode, checkRows, Traverse.mapM_check hf]
  simp only [List.mem_map, forall_exists_index, and_imp, forall_apply_eq_imp_iff₂]
  refine and_congr_right fun _ => forall₂_congr fun a _ => ?_
  rw [Record.Fits]
  cases (Record.table α).schema.validate (Record.row a) <;> simp [Except.map]

end Store

namespace Row

theorem integerAt_ofInt {row : Row} {i : Nat} {n : Int} (h : row[i]? = some (Cell.ofInt n))
    (hn : IsWord n) : row.integerAt i = n := by
  rw [integerAt, h, Cell.ofInt_of_isWord hn]

theorem textIs_iff {row : Row} {i : Nat} {s t : String} (h : row[i]? = some (.text s)) :
    row.textIs i t = true ↔ s = t := by
  simp [textIs, h]

end Row

section Swap

variable {s : Swap}

theorem keyOf_stored_swap (s : Swap) :
    TableId.swaps.schema.keyOf (Record.stored s) = some (.text s.uniqueKey) := rfl

theorem stored_swap (s : Swap) : Record.stored s = Record.row s := by
  simp [Record.stored, Row.stored, Record.row, Cell.ofAmount, Cell.ofHeight, Cell.ofIndex]

theorem fits_swap :
    Record.Fits s ↔ IsWord s.offerAmount.val ∧ IsWord s.returnAmount.val ∧
      IsWord s.taxAmount.val ∧ IsWord s.commissionAmount.val ∧ IsWord s.spreadAmount.val ∧
      IsWord s.height.val := by
  rw [Record.Fits, TableSchema.validate_ok]
  simp [Record.table, Record.row, TableId.schema, TableId.text, TableId.integer]

theorem row_swap_stored (h : Record.Fits s) : Row.swap (Record.stored s) = .ok s := by
  obtain ⟨h₁, h₂, h₃, h₄, h₅, h₆⟩ := fits_swap.1 h
  have hd : Row.direction s.direction.text = .ok s.direction := by cases s.direction <;> rfl
  rw [stored_swap]
  simp only [Record.row, Cell.ofAmount, Cell.ofHeight, Cell.ofIndex, Cell.ofInt_of_isWord h₁,
    Cell.ofInt_of_isWord h₂, Cell.ofInt_of_isWord h₃, Cell.ofInt_of_isWord h₄,
    Cell.ofInt_of_isWord h₅, Cell.ofInt_of_isWord h₆, Cell.ofInt_of_isWord (Cell.isWord_index _),
    Row.swap, Row.amount, Row.height, Row.index, Ranged.ofInt?_val, hd]
  rfl

theorem integerAt_stored_swap (h : Record.Fits s) :
    (Record.stored s).integerAt 2 = s.offerAmount.val ∧
      (Record.stored s).integerAt 4 = s.returnAmount.val ∧
      (Record.stored s).integerAt 12 = s.height.val ∧
      (Record.stored s).integerAt 13 = s.txIndex.val ∧
      (Record.stored s).integerAt 14 = s.msgIndex.val ∧
      (Record.stored s).integerAt 15 = s.timestamp.val := by
  obtain ⟨ho, hr, -, -, -, hh⟩ := fits_swap.1 h
  rw [stored_swap]
  exact ⟨Row.integerAt_ofInt rfl ho, Row.integerAt_ofInt rfl hr, Row.integerAt_ofInt rfl hh,
    Row.integerAt_ofInt rfl (Cell.isWord_index _), Row.integerAt_ofInt rfl (Cell.isWord_index _),
    rfl⟩

theorem textIs_stored_swap {t : String} :
    ((Record.stored s).textIs 8 t = true ↔ s.direction.text = t) ∧
      ((Record.stored s).textIs 9 t = true ↔ s.pairAddress = t) ∧
      ((Record.stored s).textIs 10 t = true ↔ s.pairKey = t) :=
  ⟨Row.textIs_iff rfl, Row.textIs_iff rfl, Row.textIs_iff rfl⟩

end Swap

section Liquidity

variable {e : LiquidityChange}

theorem keyOf_stored_liquidity (e : LiquidityChange) :
    TableId.liquidity.schema.keyOf (Record.stored e) = some (.text e.uniqueKey) := rfl

theorem fits_liquidity :
    Record.Fits e ↔ IsWord e.baseAmount.val ∧ IsWord e.quoteAmount.val ∧
      IsWord e.baseReserve.val ∧ IsWord e.quoteReserve.val ∧ Real.isFinite e.basePrice = true ∧
      IsWord e.protocolFee.val ∧ IsWord e.share.val ∧ IsWord e.height.val := by
  rw [Record.Fits, TableSchema.validate_ok]
  simp [Record.table, Record.row, TableId.schema, TableId.text, TableId.integer, TableId.real]

theorem integerAt_stored_liquidity (h : Record.Fits e) :
    (Record.stored e).integerAt 2 = e.baseAmount.val ∧
      (Record.stored e).integerAt 4 = e.quoteAmount.val ∧
      (Record.stored e).integerAt 13 = e.height.val ∧
      (Record.stored e).integerAt 14 = e.txIndex.val ∧
      (Record.stored e).integerAt 15 = e.msgIndex.val := by
  obtain ⟨hb, hq, -, -, -, -, -, hh⟩ := fits_liquidity.1 h
  have hs (n : Int) : some (Cell.ofInt n).stored = some (Cell.ofInt n) := by simp
  exact ⟨Row.integerAt_ofInt (hs _) hb, Row.integerAt_ofInt (hs _) hq,
    Row.integerAt_ofInt (hs _) hh, Row.integerAt_ofInt (hs _) (Cell.isWord_index _),
    Row.integerAt_ofInt (hs _) (Cell.isWord_index _)⟩

theorem textIs_stored_liquidity {t : String} :
    ((Record.stored e).textIs 8 t = true ↔ e.op.text = t) ∧
      ((Record.stored e).textIs 12 t = true ↔ e.pairAddress = t) :=
  ⟨Row.textIs_iff rfl, Row.textIs_iff rfl⟩

end Liquidity

section Snapshot

variable {x : Snapshot}

theorem keyOf_stored_snapshot (x : Snapshot) :
    TableId.snapshots.schema.keyOf (Record.stored x) = some (.text x.uniqueKey) := rfl

theorem stored_snapshot (x : Snapshot) : Record.stored x = Record.row x := by
  simp [Record.stored, Row.stored, Record.row, Cell.ofBalance, Cell.ofHeight]

theorem fits_snapshot :
    Record.Fits x ↔ IsWord x.base.val ∧ IsWord x.quote.val ∧ IsWord x.totalShare.val ∧
      IsWord x.height.val := by
  rw [Record.Fits, TableSchema.validate_ok]
  simp [Record.table, Record.row, TableId.schema, TableId.text, TableId.integer]

theorem row_balance {b : Balance} (h : IsWord b.val) : Row.balance ⟨b.val, h.1, h.2⟩ = b := by
  have := b.lo_le
  have := b.le_hi
  ext
  simp only [Row.balance, Ranged.pull_val]
  omega

theorem row_snapshot_stored (h : Record.Fits x) : Row.snapshot (Record.stored x) = .ok x := by
  obtain ⟨hb, hq, ht, hh⟩ := fits_snapshot.1 h
  rw [stored_snapshot]
  simp only [Record.row, Cell.ofBalance, Cell.ofHeight, Cell.ofInt_of_isWord hb,
    Cell.ofInt_of_isWord hq, Cell.ofInt_of_isWord ht, Cell.ofInt_of_isWord hh, Row.snapshot,
    Row.height, Ranged.ofInt?_val, row_balance hb, row_balance hq, row_balance ht]
  rfl

theorem integerAt_stored_snapshot (h : Record.Fits x) :
    (Record.stored x).integerAt 4 = x.height.val ∧
      (Record.stored x).integerAt 5 = x.timestamp.val := by
  obtain ⟨-, -, -, hh⟩ := fits_snapshot.1 h
  rw [stored_snapshot]
  exact ⟨Row.integerAt_ofInt rfl hh, rfl⟩

theorem textIs_stored_snapshot {t : String} :
    (Record.stored x).textIs 0 t = true ↔ x.pairAddress = t :=
  Row.textIs_iff rfl

end Snapshot

section Candle

variable {c : Candle}

theorem keyOf_stored_candle (c : Candle) :
    TableId.candles.schema.keyOf (Record.stored c) = some (.text c.uniqueKey) := rfl

theorem fits_candle :
    Record.Fits c ↔ Real.isFinite c.opening = true ∧ Real.isFinite c.high = true ∧
      Real.isFinite c.low = true ∧ Real.isFinite c.close = true ∧ IsWord c.volume.val ∧
      IsWord c.swapCount.val := by
  rw [Record.Fits, TableSchema.validate_ok]
  simp [Record.table, Record.row, TableId.schema, TableId.text, TableId.integer, TableId.real]

def Candle.kept (c : Candle) : Candle :=
  { c with
    opening := if c.opening == 0.0 then 0.0 else c.opening
    high := if c.high == 0.0 then 0.0 else c.high
    low := if c.low == 0.0 then 0.0 else c.low
    close := if c.close == 0.0 then 0.0 else c.close }

theorem row_candle_stored (h : Record.Fits c) : Row.candle (Record.stored c) = .ok c.kept := by
  obtain ⟨-, -, -, -, hv, hn⟩ := fits_candle.1 h
  simp only [Record.stored, Row.stored, Record.row, Cell.ofAmount, Cell.ofHeight,
    Cell.ofInt_of_isWord hv, Cell.ofInt_of_isWord hn, List.map_cons, List.map_nil, Cell.stored,
    Row.candle, Row.amount, Row.height, Ranged.ofInt?_val]
  rfl

theorem integerAt_stored_candle : (Record.stored c).integerAt 1 = c.timestamp.val := rfl

theorem textIs_stored_candle {t : String} :
    (Record.stored c).textIs 0 t = true ↔ c.pairKey = t :=
  Row.textIs_iff rfl

end Candle

section Yield

variable {x : AprRecord}

theorem keyOf_stored_apr (x : AprRecord) :
    TableId.aprs.schema.keyOf (Record.stored x) = some (.text x.uniqueKey) := rfl

theorem fits_apr :
    Record.Fits x ↔ IsWord x.height.val ∧ IsWord x.totalSupply.val ∧ IsWord x.totalBond.val ∧
      Real.isFinite x.apr = true := by
  rw [Record.Fits, TableSchema.validate_ok]
  simp [Record.table, Record.row, TableId.schema, TableId.text, TableId.integer, TableId.real]

theorem row_apr_stored (h : Record.Fits x) :
    Row.apr (Record.stored x) = .ok { x with apr := if x.apr == 0.0 then 0.0 else x.apr } := by
  obtain ⟨hh, hs, hb, -⟩ := fits_apr.1 h
  simp only [Record.stored, Row.stored, Record.row, Cell.ofAmount, Cell.ofHeight,
    Cell.ofInt_of_isWord hh, Cell.ofInt_of_isWord hs, Cell.ofInt_of_isWord hb, List.map_cons,
    List.map_nil, Cell.stored, Row.apr, Row.amount, Row.height, Ranged.ofInt?_val]
  rfl

theorem integerAt_stored_apr (h : Record.Fits x) : (Record.stored x).integerAt 1 = x.height.val := by
  obtain ⟨hh, -⟩ := fits_apr.1 h
  exact Row.integerAt_ofInt (by simp [Record.stored, Row.stored, Record.row, Cell.ofHeight]) hh

theorem textIs_stored_apr {t : String} :
    (Record.stored x).textIs 0 t = true ↔ x.pairAddress = t :=
  Row.textIs_iff rfl

end Yield

end PoolLedger
