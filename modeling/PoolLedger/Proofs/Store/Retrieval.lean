import PoolLedger.Proofs.CandleTable
import PoolLedger.Proofs.Store.Transaction

/-! What the store takes it gives back. A record is refused when an integer of it
is no word or a real is not finite, and then nothing is written. Else every
question that it answers gives it as it was, save that zero has no sign. -/

namespace PoolLedger

def AprRecord.kept (x : AprRecord) : AprRecord :=
  { x with apr := if x.apr == 0.0 then 0.0 else x.apr }

namespace Store

variable {α : Type} [Record α]

def writeRecords (xs : List α) (t : Tables) : Except IndexerError Unit × Tables :=
  match encode xs with
  | .error e => (.error e, t)
  | .ok rows => Writing.transact (Writing.insertRows (Record.table α) rows) t

theorem writeRecords_eq (s : Store) (xs : List α) :
    writeRecords xs s.tables =
      match s.insert xs with
      | .ok (s', _) => (.ok (), s'.tables)
      | .error e => (.error e, s.tables) := by
  have hinsert : s.insert xs = (encode xs).map (s.write (Record.table α)) := rfl
  rw [writeRecords, hinsert]
  cases encode xs with
  | error e => rfl
  | ok rows =>
    simp only [Writing.transact]
    rw [Writing.run_insertRows]
    rfl

def Refuses (x : α) : Prop :=
  ∃ m, empty.insert [x] = .error (.schemaMismatch m) ∧
    writeRecords [x] empty.tables = (.error (.schemaMismatch m), empty.tables)

def Takes (x : α) (s : Store) : Prop :=
  empty.insert [x] = .ok (s, 1) ∧ writeRecords [x] empty.tables = (.ok (), s.tables)

def holding (x : α) : Store := empty.setRows (Record.table α) [Record.stored x]

theorem insertRows_one (t : TableSchema) (row : Row) :
    t.insertRows [] [row] = ([row.stored], 1) := by
  have hrow : t.insertRow [] row = ([row.stored], true) := by
    unfold TableSchema.insertRow
    cases t.conflict <;> rfl
  simp [TableSchema.insertRows, chunks, TableSchema.insertStatement, hrow]

theorem refuses_or_takes
    (hlength : ∀ x : α, (Record.row x).length = (Record.table α).schema.columns.length) (x : α) :
    ¬ Record.Fits x ∧ Refuses x ∨ Record.Fits x ∧ Takes x (holding x) := by
  have hinsert : empty.insert [x] = (encode [x]).map (empty.write (Record.table α)) := rfl
  have hrows (t : TableId) : empty.rows t = [] := by cases t <;> rfl
  rcases encode_cases hlength [x] with ⟨hnot, m, h⟩ | ⟨hfits, h⟩
  · rw [h] at hinsert
    refine .inl ⟨fun hx => hnot (by simpa using hx), m, hinsert, ?_⟩
    rw [writeRecords_eq, hinsert]
    rfl
  · rw [h] at hinsert
    have htaken : empty.insert [x] = .ok (holding x, 1) := by
      rw [hinsert, List.map_singleton, Except.map, write, hrows, insertRows_one]
      rfl
    refine .inr ⟨hfits x List.mem_cons_self, htaken, ?_⟩
    rw [writeRecords_eq, htaken]

theorem latestBy_one (places : List Nat) (row : Row) : latestBy places [row] = some row := by
  rw [latestBy, List.mergeSort_singleton]
  rfl

theorem swaps_holding (x : Swap) : (holding x).swaps = [x].map Record.stored := rfl

theorem swapsInBuckets_holding {x : Swap} (h : Record.Fits x) :
    (holding x).swapsInBuckets [x.bucket] = .ok [x] := by
  rw [swapsInBuckets_eq (swaps_holding x) (by simpa using h)]
  simp [Candle.inChainOrder]

theorem swapsBetween_holding {x : Swap} (h : Record.Fits x) :
    (holding x).swapsBetween x.pairKey x.timestamp x.timestamp = .ok [x] := by
  rw [swapsBetween_eq (swaps_holding x) (by simpa using h)]
  simp [PairBucket.isBetween, Swap.bucket, Candle.inChainOrder, Ranged.le_def]

theorem latestReserveBefore_holding {x : Snapshot} (h : Record.Fits x) {bound : Height}
    (hbound : x.height < bound) (hlast : x.height.val < 9223372036854775807) :
    (holding x).latestReserveBefore x.pairAddress bound = .ok (some x) := by
  obtain ⟨hheight, -⟩ := integerAt_stored_snapshot h
  have hlt : x.height.val < (Store.bound bound).val := by
    rw [Ranged.lt_def] at hbound
    simp only [Store.bound, Ranged.pull_val]
    omega
  have hrows : (holding x).snapshots.filter (fun r =>
      r.textIs 0 x.pairAddress && r.integerAt 4 < (Store.bound bound).val) =
        [Record.stored x] := by
    refine List.filter_eq_self.2 fun row hrow => ?_
    rw [List.mem_singleton.1 hrow, hheight]
    simp [textIs_stored_snapshot.2 rfl, hlt]
  rw [latestReserveBefore, hrows, latestBy_one, Option.mapM_some, row_snapshot_stored h]
  rfl

theorem candlesBetween_holding {c : Candle} (h : Record.Fits c) :
    (holding c).candlesBetween c.pairKey c.timestamp c.timestamp = .ok [c.kept] := by
  have hrows : (holding c).candles.filter (fun r =>
      r.textIs 0 c.pairKey && r.within 1 c.timestamp c.timestamp) = [Record.stored c] := by
    refine List.filter_eq_self.2 fun row hrow => ?_
    rw [List.mem_singleton.1 hrow, Row.within, integerAt_stored_candle]
    simp [textIs_stored_candle.2 rfl]
  rw [candlesBetween, hrows, List.mergeSort_singleton, Traverse.mapM_eq_ok, List.map_singleton,
    row_candle_stored h]
  rfl

theorem latestApr_holding {x : AprRecord} (h : Record.Fits x) :
    (holding x).latestApr x.pairAddress = .ok (some x.kept) := by
  have hrows : ((holding x).aprs.filter fun r => r.textIs 0 x.pairAddress) =
      [Record.stored x] := by
    refine List.filter_eq_self.2 fun row hrow => ?_
    rw [List.mem_singleton.1 hrow, textIs_stored_apr.2 rfl]
  rw [latestApr, hrows, List.reverse_singleton, latestBy_one, Option.mapM_some, row_apr_stored h]
  rfl

/-- A record that a new store refuses leaves nothing behind, and it is refused
exactly when one of its integers is no word or one of its reals is not finite.
Every other record is stored and read back. -/
theorem stored_records_read_back :
    (∀ x : Swap,
      ¬ (IsWord x.offerAmount.val ∧ IsWord x.returnAmount.val ∧ IsWord x.taxAmount.val ∧
        IsWord x.commissionAmount.val ∧ IsWord x.spreadAmount.val ∧ IsWord x.height.val) ∧
          Refuses x ∨
      (IsWord x.offerAmount.val ∧ IsWord x.returnAmount.val ∧ IsWord x.taxAmount.val ∧
        IsWord x.commissionAmount.val ∧ IsWord x.spreadAmount.val ∧ IsWord x.height.val) ∧
          ∃ s, Takes x s ∧ s.swapsInBuckets [x.bucket] = .ok [x] ∧
            s.swapsBetween x.pairKey x.timestamp x.timestamp = .ok [x]) ∧
    (∀ x : Snapshot,
      ¬ (IsWord x.base.val ∧ IsWord x.quote.val ∧ IsWord x.totalShare.val ∧
        IsWord x.height.val) ∧ Refuses x ∨
      (IsWord x.base.val ∧ IsWord x.quote.val ∧ IsWord x.totalShare.val ∧ IsWord x.height.val) ∧
          ∃ s, Takes x s ∧ ∀ bound, x.height < bound → x.height.val < 9223372036854775807 →
            s.latestReserveBefore x.pairAddress bound = .ok (some x)) ∧
    (∀ c : Candle,
      ¬ (Real.isFinite c.opening = true ∧ Real.isFinite c.high = true ∧
        Real.isFinite c.low = true ∧ Real.isFinite c.close = true ∧ IsWord c.volume.val ∧
        IsWord c.swapCount.val) ∧ Refuses c ∨
      (Real.isFinite c.opening = true ∧ Real.isFinite c.high = true ∧
        Real.isFinite c.low = true ∧ Real.isFinite c.close = true ∧ IsWord c.volume.val ∧
        IsWord c.swapCount.val) ∧
          ∃ s, Takes c s ∧
            s.candlesBetween c.pairKey c.timestamp c.timestamp = .ok [c.kept]) ∧
    (∀ x : AprRecord,
      ¬ (IsWord x.height.val ∧ IsWord x.totalSupply.val ∧ IsWord x.totalBond.val ∧
        Real.isFinite x.apr = true) ∧ Refuses x ∨
      (IsWord x.height.val ∧ IsWord x.totalSupply.val ∧ IsWord x.totalBond.val ∧
        Real.isFinite x.apr = true) ∧
          ∃ s, Takes x s ∧ s.latestApr x.pairAddress = .ok (some x.kept)) := by
  simp only [← fits_swap, ← fits_snapshot, ← fits_candle, ← fits_apr]
  refine ⟨fun x => ?_, fun x => ?_, fun c => ?_, fun x => ?_⟩
  · exact (refuses_or_takes (fun _ => rfl) x).imp_right fun ⟨h, taken⟩ =>
      ⟨h, _, taken, swapsInBuckets_holding h, swapsBetween_holding h⟩
  · exact (refuses_or_takes (fun _ => rfl) x).imp_right fun ⟨h, taken⟩ =>
      ⟨h, _, taken, fun bound => latestReserveBefore_holding h⟩
  · exact (refuses_or_takes (fun _ => rfl) c).imp_right fun ⟨h, taken⟩ =>
      ⟨h, _, taken, candlesBetween_holding h⟩
  · exact (refuses_or_takes (fun _ => rfl) x).imp_right fun ⟨h, taken⟩ =>
      ⟨h, _, taken, latestApr_holding h⟩

end Store

end PoolLedger
