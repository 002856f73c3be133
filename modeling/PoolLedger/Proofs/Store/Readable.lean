import PoolLedger.Proofs.Store.Persist
import PoolLedger.Store.Reading

/-! What is written can be read. Every write checks its rows, so the tables hold
rows of records, and no question about swaps, reserves, yields or the
checkpoint fails. -/

namespace PoolLedger

def HoldsRecords (α : Type) [Record α] (rows : List Row) : Prop :=
  ∃ xs : List α, rows = xs.map Record.stored ∧ ∀ x ∈ xs, Record.Fits x

namespace HoldsRecords

variable {α : Type} [Record α] {rows : List Row}

theorem empty : HoldsRecords α [] := ⟨[], rfl, by simp⟩

theorem append (h : HoldsRecords α rows) {x : α} (hx : Record.Fits x) :
    HoldsRecords α (rows ++ [Record.stored x]) := by
  obtain ⟨xs, rfl, hxs⟩ := h
  refine ⟨xs ++ [x], by simp, fun y hy => ?_⟩
  rcases List.mem_append.1 hy with hy | hy
  · exact hxs y hy
  · exact List.mem_singleton.1 hy ▸ hx

theorem filter (h : HoldsRecords α rows) (p : Row → Bool) : HoldsRecords α (rows.filter p) := by
  obtain ⟨xs, rfl, hxs⟩ := h
  exact ⟨_, List.filter_map, fun y hy => hxs y (List.mem_filter.1 hy).1⟩

theorem insertRow (h : HoldsRecords α rows) {x : α} (hx : Record.Fits x) :
    HoldsRecords α ((Record.table α).schema.insertRow rows (Record.row x)).1 := by
  unfold TableSchema.insertRow
  extract_lets row taken
  split
  · split
    · exact h
    · exact h.append hx
  · exact (h.filter _).append hx

theorem insertEach (h : HoldsRecords α rows) {xs : List α} (hxs : ∀ x ∈ xs, Record.Fits x) :
    HoldsRecords α ((Record.table α).schema.insertEach rows (xs.map Record.row)) := by
  induction xs generalizing rows with
  | nil => exact h
  | cons x xs ih =>
    exact ih (h.insertRow (hxs x List.mem_cons_self)) fun y hy => hxs y (List.mem_cons_of_mem x hy)

theorem of_mem (h : HoldsRecords α rows) {row : Row} (hrow : row ∈ rows) :
    ∃ x : α, Record.Fits x ∧ row = Record.stored x := by
  obtain ⟨xs, rfl, hxs⟩ := h
  obtain ⟨x, hx, rfl⟩ := List.mem_map.1 hrow
  exact ⟨x, hxs x hx, rfl⟩

end HoldsRecords

namespace Store

variable {s s' : Store}

/-- A store after any writes of an indexer. -/
inductive Written : Store → Prop
  | opened : Written .empty
  | persisted {s s' : Store} (before : Written s) {b : Batch} (done : s.persist b = .ok s') :
    Written s'
  | moved {s s' : Store} (before : Written s) {h : Height} (done : s.saveCheckpoint h = .ok s') :
    Written s'
  | listed {s s' : Store} (before : Written s) {pairs : List Pair} {n : Nat}
    (done : s.insertPairs pairs = .ok (s', n)) : Written s'

/-- All that passes read of a store is there. -/
structure Readable (s : Store) : Prop where
  swaps : HoldsRecords Swap s.swaps
  snapshots : HoldsRecords Snapshot s.snapshots
  aprs : HoldsRecords AprRecord s.aprs
  checkpoint : ∀ w, s.checkpoint = some w → 0 ≤ w.val

theorem Written.readable (h : s.Written) : s.Readable := by
  induction h with
  | opened => exact ⟨.empty, .empty, .empty, by simp [Store.empty]⟩
  | @persisted s s' _ b done ih =>
    obtain ⟨fits, rfl⟩ := persist_ok.1 done
    refine ⟨ih.swaps.insertEach fits.swaps, ih.snapshots.insertEach fits.snapshots,
      ih.aprs.insertEach fits.aprs, fun w hw => ?_⟩
    rw [Ranged.ofInt?_eq_some_iff.1 hw]
    exact b.checkpoint.lo_le
  | @moved s s' _ h done ih =>
    obtain ⟨-, rfl⟩ := saveCheckpoint_ok.1 done
    refine ⟨ih.swaps, ih.snapshots, ih.aprs, fun w hw => ?_⟩
    rw [Ranged.ofInt?_eq_some_iff.1 hw]
    exact h.lo_le
  | @listed s s' _ pairs n done ih =>
    unfold insertPairs insert insertRows at done
    cases hrows : checkRows (Record.table Pair)
        ((pairs.filter fun p => p.address ≠ "").map Record.row) with
    | error e =>
      rw [hrows] at done
      cases done
    | ok rows =>
      rw [hrows] at done
      cases done
      exact ⟨ih.swaps, ih.snapshots, ih.aprs, ih.checkpoint⟩

theorem mem_of_latestBy {places : List Nat} {rows : List Row} {row : Row}
    (h : latestBy places rows = some row) : row ∈ rows :=
  List.mem_mergeSort.1 (List.mem_of_getLast? h)

theorem exists_ok_of_latestBy {β : Type} {places : List Nat} {rows : List Row}
    {read : Row → Except IndexerError β} (h : ∀ row ∈ rows, ∃ v, read row = .ok v) :
    ∃ v, (latestBy places rows).mapM read = .ok v := by
  cases hl : latestBy places rows with
  | none => exact ⟨none, rfl⟩
  | some row =>
    obtain ⟨v, hv⟩ := h row (mem_of_latestBy hl)
    exact ⟨some v, by rw [Option.mapM_some, hv]; rfl⟩

namespace Readable

variable (h : s.Readable)
include h

theorem latestReserveBefore (address : String) (bound : Height) :
    ∃ v, s.latestReserveBefore address bound = .ok v := by
  refine exists_ok_of_latestBy fun row hrow => ?_
  obtain ⟨x, hx, rfl⟩ := h.snapshots.of_mem (List.mem_filter.1 hrow).1
  exact ⟨x, row_snapshot_stored hx⟩

theorem latestApr (address : String) : ∃ v, s.latestApr address = .ok v := by
  refine exists_ok_of_latestBy fun row hrow => ?_
  obtain ⟨x, hx, rfl⟩ := h.aprs.of_mem (List.mem_filter.1 (List.mem_reverse.1 hrow)).1
  exact ⟨_, row_apr_stored hx⟩

theorem loadCheckpoint : ∃ v, s.loadCheckpoint = .ok v := by
  unfold Store.loadCheckpoint
  cases hc : s.checkpoint with
  | none => exact ⟨none, rfl⟩
  | some w =>
    have := h.checkpoint w hc
    have := w.le_hi
    have hheight : (Ranged.ofInt? w.val : Option Height) = some ⟨w.val, by omega, by omega⟩ :=
      Ranged.ofInt?_eq_some_iff.2 rfl
    refine ⟨some ⟨w.val, by omega, by omega⟩, ?_⟩
    rw [Option.mapM_some, Row.height, hheight]
    rfl

end Readable

end Store

end PoolLedger
