import PoolLedger.Proofs.Store.Merge
import PoolLedger.Proofs.Store.Persist
import PoolLedger.Store.Reading

/-! Writing a batch as a transaction: statement by statement on the tables, and
back to the tables as they were when one step fails. The store holds what the
transaction leaves. -/

namespace PoolLedger

structure Tables where
  rows : TableId → List Row
  checkpoints : List Word

def Store.tables (s : Store) : Tables := ⟨s.rows, s.checkpoint.toList⟩

abbrev Writing := ExceptT IndexerError (StateM Tables)

namespace Writing

/-- Runs the steps, and takes all of them back when one fails. -/
def transact (w : Writing Unit) (t : Tables) : Except IndexerError Unit × Tables :=
  match w.run t with
  | (.ok (), t') => (.ok (), t')
  | (.error e, _) => (.error e, t)

def statement (id : TableId) (new : List Row) : Writing Unit :=
  modify fun t => { t with
    rows := Function.update t.rows id (id.schema.insertStatement (t.rows id) new).1 }

def insertRows (id : TableId) (new : List Row) : Writing Unit :=
  (chunks TableSchema.statementSize new).forM (statement id)

def saveCheckpoint (h : Height) : Writing Unit := do
  match (Ranged.ofInt? h.val : Option Word) with
  | none => throw (.internal ("checkpoint " ++ toString h ++ " out of range"))
  | some w =>
    modify fun t => { t with checkpoints := [] }
    modify fun t => { t with checkpoints := t.checkpoints ++ [w] }

end Writing

namespace Batch

def rows (b : Batch) : TableId → List Row
  | .swaps => b.swaps.map Record.row
  | .liquidity => b.liquidity.map Record.row
  | .snapshots => b.snapshots.map Record.row
  | .candles => b.candles.map Record.row
  | .aprs => b.aprs.map Record.row
  | .pairs => []

def RowsFit (b : Batch) : Prop := ∀ id, ∀ row ∈ b.rows id, id.schema.validate row = .ok ()

def checked (b : Batch) :
    Except IndexerError (List Row × List Row × List Row × List Row × List Row) := do
  let swaps ← Store.encode b.swaps
  let liquidity ← Store.encode b.liquidity
  let snapshots ← Store.encode b.snapshots
  let candles ← Store.encode b.candles
  let aprs ← Store.encode b.aprs
  return (swaps, liquidity, snapshots, candles, aprs)

/-- All rows are checked, then those of each table are inserted, then the
checkpoint is written. -/
def write (b : Batch) (t : Tables) : Except IndexerError Unit × Tables :=
  match b.checked with
  | .error e => (.error e, t)
  | .ok (swaps, liquidity, snapshots, candles, aprs) =>
    Writing.transact (do
      Writing.insertRows .swaps swaps
      Writing.insertRows .liquidity liquidity
      Writing.insertRows .snapshots snapshots
      Writing.insertRows .candles candles
      Writing.insertRows .aprs aprs
      Writing.saveCheckpoint b.checkpoint) t

structure Storable (b : Batch) : Prop where
  swaps : ∀ x ∈ b.swaps, IsWord x.offerAmount.val ∧ IsWord x.returnAmount.val ∧
    IsWord x.taxAmount.val ∧ IsWord x.commissionAmount.val ∧ IsWord x.spreadAmount.val ∧
    IsWord x.height.val
  liquidity : ∀ x ∈ b.liquidity, IsWord x.baseAmount.val ∧ IsWord x.quoteAmount.val ∧
    IsWord x.baseReserve.val ∧ IsWord x.quoteReserve.val ∧ Real.isFinite x.basePrice = true ∧
    IsWord x.protocolFee.val ∧ IsWord x.share.val ∧ IsWord x.height.val
  snapshots : ∀ x ∈ b.snapshots, IsWord x.base.val ∧ IsWord x.quote.val ∧
    IsWord x.totalShare.val ∧ IsWord x.height.val
  candles : ∀ x ∈ b.candles, Real.isFinite x.opening = true ∧ Real.isFinite x.high = true ∧
    Real.isFinite x.low = true ∧ Real.isFinite x.close = true ∧ IsWord x.volume.val ∧
    IsWord x.swapCount.val
  aprs : ∀ x ∈ b.aprs, IsWord x.height.val ∧ IsWord x.totalSupply.val ∧
    IsWord x.totalBond.val ∧ Real.isFinite x.apr = true
  checkpoint : IsWord b.checkpoint.val

theorem fits_iff_storable {b : Batch} : b.Fits ↔ b.Storable := by
  constructor
  · rintro ⟨hs, hl, hx, hc, ha, h⟩
    exact ⟨fun x m => fits_swap.1 (hs x m), fun x m => fits_liquidity.1 (hl x m),
      fun x m => fits_snapshot.1 (hx x m), fun x m => fits_candle.1 (hc x m),
      fun x m => fits_apr.1 (ha x m), h⟩
  · rintro ⟨hs, hl, hx, hc, ha, h⟩
    exact ⟨fun x m => fits_swap.2 (hs x m), fun x m => fits_liquidity.2 (hl x m),
      fun x m => fits_snapshot.2 (hx x m), fun x m => fits_candle.2 (hc x m),
      fun x m => fits_apr.2 (ha x m), h⟩

theorem forall_validate {α : Type} [Record α] {xs : List α} :
    (∀ row ∈ xs.map Record.row, (Record.table α).schema.validate row = .ok ()) ↔
      ∀ x ∈ xs, Record.Fits x :=
  List.forall_mem_map

theorem rowsFit_iff {b : Batch} :
    b.RowsFit ↔ (∀ x ∈ b.swaps, Record.Fits x) ∧ (∀ x ∈ b.liquidity, Record.Fits x) ∧
      (∀ x ∈ b.snapshots, Record.Fits x) ∧ (∀ x ∈ b.candles, Record.Fits x) ∧
      ∀ x ∈ b.aprs, Record.Fits x := by
  constructor
  · intro hv
    exact ⟨forall_validate.1 (hv .swaps), forall_validate.1 (hv .liquidity),
      forall_validate.1 (hv .snapshots), forall_validate.1 (hv .candles),
      forall_validate.1 (hv .aprs)⟩
  · rintro ⟨hs, hl, hx, hc, ha⟩ id
    cases id with
    | swaps => exact forall_validate.2 hs
    | liquidity => exact forall_validate.2 hl
    | snapshots => exact forall_validate.2 hx
    | candles => exact forall_validate.2 hc
    | aprs => exact forall_validate.2 ha
    | pairs => nofun

theorem fits_iff_rowsFit {b : Batch} : b.Fits ↔ b.RowsFit ∧ IsWord b.checkpoint.val := by
  rw [rowsFit_iff]
  constructor
  · rintro ⟨hs, hl, hx, hc, ha, h⟩
    exact ⟨⟨hs, hl, hx, hc, ha⟩, h⟩
  · rintro ⟨⟨hs, hl, hx, hc, ha⟩, h⟩
    exact ⟨hs, hl, hx, hc, ha, h⟩

end Batch

theorem Store.rows_after (s : Store) (b : Batch) (id : TableId) :
    (s.after b).rows id = id.schema.insertEach (s.rows id) (b.rows id) := by
  cases id <;> rfl

namespace Writing

variable {t : Tables}

theorem run_bind_ok {p : Writing Unit} {f : Unit → Writing Unit} {t t' : Tables}
    (h : p.run t = (.ok (), t')) : (p >>= f).run t = (f ()).run t' := by
  rw [ExceptT.run_bind]
  simp only [bind, StateT.bind]
  rw [h]

theorem run_statement (id : TableId) (new : List Row) (t : Tables) :
    (statement id new).run t = (.ok (), { t with
      rows := Function.update t.rows id (id.schema.insertEach (t.rows id) new) }) := by
  rw [← TableSchema.insertStatement_fst]
  rfl

theorem run_statements (id : TableId) (parts : List (List Row)) (t : Tables) :
    (parts.forM (statement id)).run t = (.ok (), { t with
      rows := Function.update t.rows id (id.schema.insertEach (t.rows id) parts.flatten) }) := by
  induction parts generalizing t with
  | nil =>
    change (Except.ok (), t) = _
    simp [TableSchema.insertEach]
  | cons part parts ih =>
    change (statement id part >>= fun _ => parts.forM (statement id)).run t = _
    rw [run_bind_ok (run_statement id part t), ih]
    simp [TableSchema.insertEach_append]

theorem run_insertRows (s : Store) (id : TableId) (new : List Row) :
    (insertRows id new).run s.tables = (.ok (), (s.write id new).1.tables) := by
  have htables : (s.write id new).1.tables = { s.tables with
      rows := Function.update s.rows id (id.schema.insertEach (s.rows id) new) } := by
    rw [← TableSchema.insertRows_fst]
    refine congrArg₂ Tables.mk (funext fun u => ?_) (by cases id <;> rfl)
    rw [Store.write, Store.rows_setRows, Function.update_apply]
  rw [insertRows, run_statements, flatten_chunks, htables]
  rfl

theorem run_saveCheckpoint (s : Store) (h : Height) :
    (saveCheckpoint h).run s.tables =
      match s.saveCheckpoint h with
      | .ok s' => (.ok (), s'.tables)
      | .error e => (.error e, s.tables) := by
  rw [saveCheckpoint, Store.saveCheckpoint]
  cases (Ranged.ofInt? h.val : Option Word) <;> rfl

end Writing

theorem Store.persist_eq (s : Store) (b : Batch) :
    s.persist b = b.checked >>= fun (swaps, liquidity, snapshots, candles, aprs) =>
      ((((((s.write .swaps swaps).1.write .liquidity liquidity).1.write .snapshots
        snapshots).1.write .candles candles).1.write .aprs aprs).1).saveCheckpoint b.checkpoint := by
  simp only [persist, Batch.checked, bind_assoc, pure_bind]

theorem Store.encode_cases {α : Type} [Record α]
    (hlength : ∀ x : α, (Record.row x).length = (Record.table α).schema.columns.length)
    (xs : List α) :
    ((¬ ∀ x ∈ xs, Record.Fits x) ∧ ∃ m, encode xs = .error (.schemaMismatch m)) ∨
      (∀ x ∈ xs, Record.Fits x) ∧ encode xs = .ok (xs.map Record.row) := by
  cases h : encode xs with
  | ok rows =>
    obtain ⟨rfl, hfits⟩ := encode_ok.1 h
    exact .inr ⟨hfits, rfl⟩
  | error e =>
    obtain ⟨row, hrow, hcheck⟩ := Traverse.exists_error_of_mapM h
    obtain ⟨x, hx, rfl⟩ := List.mem_map.1 hrow
    have hvalidate := Traverse.error_of_map hcheck
    have hunfit : ¬ Record.Fits x := by simp [Record.Fits, hvalidate]
    rw [TableSchema.validate, if_neg (not_not_intro (hlength x))] at hvalidate
    cases hm : (Record.table α).schema.mismatch? (Record.row x) with
    | none =>
      rw [hm] at hvalidate
      cases hvalidate
    | some m =>
      rw [hm] at hvalidate
      exact .inl ⟨fun hall => hunfit (hall x hx), m, by rw [← Except.error.inj hvalidate]⟩

theorem Batch.checked_cases (b : Batch) :
    (¬ b.RowsFit ∧ ∃ m, b.checked = .error (.schemaMismatch m)) ∨
      b.RowsFit ∧ ∃ rows, b.checked = .ok rows := by
  rw [rowsFit_iff, checked]
  rcases Store.encode_cases (fun _ => rfl) b.swaps with ⟨hnot, m, h⟩ | ⟨hs, h⟩
  · exact .inl ⟨fun hall => hnot hall.1, m, by rw [h]; rfl⟩
  rw [h]
  rcases Store.encode_cases (fun _ => rfl) b.liquidity with ⟨hnot, m, h⟩ | ⟨hl, h⟩
  · exact .inl ⟨fun hall => hnot hall.2.1, m, by rw [h]; rfl⟩
  rw [h]
  rcases Store.encode_cases (fun _ => rfl) b.snapshots with ⟨hnot, m, h⟩ | ⟨hx, h⟩
  · exact .inl ⟨fun hall => hnot hall.2.2.1, m, by rw [h]; rfl⟩
  rw [h]
  rcases Store.encode_cases (fun _ => rfl) b.candles with ⟨hnot, m, h⟩ | ⟨hc, h⟩
  · exact .inl ⟨fun hall => hnot hall.2.2.2.1, m, by rw [h]; rfl⟩
  rw [h]
  rcases Store.encode_cases (fun _ => rfl) b.aprs with ⟨hnot, m, h⟩ | ⟨ha, h⟩
  · exact .inl ⟨fun hall => hnot hall.2.2.2.2, m, by rw [h]; rfl⟩
  rw [h]
  exact .inr ⟨⟨hs, hl, hx, hc, ha⟩, _, rfl⟩

theorem Store.persist_cases (s : Store) (b : Batch) :
    (¬ b.RowsFit ∧ ∃ m, s.persist b = .error (.schemaMismatch m)) ∨
    (b.RowsFit ∧ IsWord b.checkpoint.val ∧ s.persist b = .ok (s.after b)) ∨
    (b.RowsFit ∧ ¬ IsWord b.checkpoint.val ∧
      s.persist b = .error (.internal
        ("checkpoint " ++ toString b.checkpoint ++ " out of range"))) := by
  rcases b.checked_cases with ⟨hnot, m, h⟩ | ⟨hrows, rows, h⟩
  · exact .inl ⟨hnot, m, by rw [persist_eq, h]; rfl⟩
  · by_cases hword : IsWord b.checkpoint.val
    · have hfits := Batch.fits_iff_rowsFit.2 ⟨hrows, hword⟩
      exact .inr (.inl ⟨hrows, hword, persist_ok.2 ⟨hfits, rfl⟩⟩)
    · have hnone : (Ranged.ofInt? b.checkpoint.val : Option Word) = none := dif_neg hword
      refine .inr (.inr ⟨hrows, hword, ?_⟩)
      rw [persist_eq, h]
      simp only [bind, Except.bind, saveCheckpoint, hnone]

theorem Batch.write_eq (s : Store) (b : Batch) :
    b.write s.tables =
      match s.persist b with
      | .ok s' => (.ok (), s'.tables)
      | .error e => (.error e, s.tables) := by
  rw [write, Store.persist_eq]
  cases b.checked with
  | error e => rfl
  | ok rows =>
    obtain ⟨swaps, liquidity, snapshots, candles, aprs⟩ := rows
    simp only [Writing.transact]
    rw [Writing.run_bind_ok (Writing.run_insertRows _ _ _),
      Writing.run_bind_ok (Writing.run_insertRows _ _ _),
      Writing.run_bind_ok (Writing.run_insertRows _ _ _),
      Writing.run_bind_ok (Writing.run_insertRows _ _ _),
      Writing.run_bind_ok (Writing.run_insertRows _ _ _), Writing.run_saveCheckpoint]
    simp only [bind, Except.bind]
    generalize (Store.saveCheckpoint _ b.checkpoint) = saved
    cases saved <;> rfl

namespace Store

variable {s s' : Store} {b : Batch}

/-- The tables after a batch. Each is the old one with the new rows put in one at
a time, as `TableSchema.merge` says at once, and however they are divided. -/
structure Wrote (s : Store) (b : Batch) (s' : Store) : Prop where
  one_by_one : ∀ id, s'.rows id = id.schema.insertEach (s.rows id) (b.rows id)
  merged : ∀ id, s'.rows id = id.schema.merge (s.rows id) (b.rows id)
  divided : ∀ id (parts : List (List Row)), parts.flatten = b.rows id →
    parts.foldl (fun acc part => (id.schema.insertStatement acc part).1) (s.rows id) = s'.rows id
  unique : ∀ id : TableId, id.schema.UniqueKeys (s.rows id) → id.schema.UniqueKeys (s'.rows id)
  checkpoints : s'.tables.checkpoints.map Ranged.val = [b.checkpoint.val]
  loadCheckpoint : s'.loadCheckpoint = .ok (some b.checkpoint)

theorem wrote_of_persist (h : s.persist b = .ok s') : s.Wrote b s' := by
  obtain ⟨hfits, rfl⟩ := persist_ok.1 h
  have hword : (Ranged.ofInt? b.checkpoint.val : Option Word) =
      some ⟨b.checkpoint.val, hfits.checkpoint.1, hfits.checkpoint.2⟩ :=
    Ranged.ofInt?_eq_some_iff.2 rfl
  have hrows := s.rows_after b
  exact {
    one_by_one := hrows
    merged := fun id => (hrows id).trans TableSchema.insertEach_eq_merge
    divided := fun id parts hparts => by
      rw [TableSchema.insertStatements_eq, hparts, hrows]
    unique := fun id hunique => hrows id ▸ hunique.insertEach
    checkpoints := by simp [Store.tables, after, hword]
    loadCheckpoint := by
      simp only [Store.loadCheckpoint, after, hword, Option.mapM_some, Row.height,
        Ranged.ofInt?_val]
      rfl }

/-- A batch is written as a whole or not at all. It is written exactly when every
row passes the check of its table and the checkpoint is a word, that is when
every integer is a word and every real finite. -/
theorem persist_atomic (s : Store) (b : Batch) :
    ((∃ s', s.persist b = .ok s') ↔ b.RowsFit ∧ IsWord b.checkpoint.val) ∧
    ((∃ s', s.persist b = .ok s') ↔ b.Storable) ∧
    (∀ e, s.persist b = .error e → b.write s.tables = (.error e, s.tables)) ∧
    ∀ s', s.persist b = .ok s' → b.write s.tables = (.ok (), s'.tables) ∧ s.Wrote b s' := by
  have hfits : (∃ s', s.persist b = .ok s') ↔ b.Fits := by
    simp only [persist_ok, exists_and_left, exists_eq, and_true]
  refine ⟨hfits.trans Batch.fits_iff_rowsFit, hfits.trans Batch.fits_iff_storable,
    fun e he => ?_, fun s' hs' => ⟨?_, wrote_of_persist hs'⟩⟩
  · rw [Batch.write_eq, he]
  · rw [Batch.write_eq, hs']

end Store

end PoolLedger
