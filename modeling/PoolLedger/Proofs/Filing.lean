import PoolLedger.Proofs.Runs

/-! Snapshots as rows. Each is filed under its time and its pool, so that no two of a batch have
one key, and a batch puts its snapshots in the places of those with their keys. -/

namespace PoolLedger

/-- A snapshot that fits its table, under its time and its pool. -/
structure Snapshot.Filed (x : Snapshot) : Prop where
  fits : Record.Fits x
  key : x.uniqueKey = timeKey x.timestamp x.pairAddress

namespace Snapshot

variable {r : Registry} {seeds : Seeds} {swaps : List Swap} {liquidity : List LiquidityChange}
  {x y : Snapshot}

theorem Filed.keyOf_eq (hx : x.Filed) (hy : y.Filed) :
    TableId.snapshots.schema.keyOf (Record.stored x) =
        TableId.snapshots.schema.keyOf (Record.stored y) ↔
      x.timestamp = y.timestamp ∧ x.pairAddress = y.pairAddress := by
  rw [keyOf_stored_snapshot, keyOf_stored_snapshot, hx.key, hy.key, Option.some.injEq,
    Cell.text.injEq, timeKey_inj]

theorem key_of_mem_accumulate (hx : x ∈ accumulate r seeds swaps liquidity) :
    (r.byAddress? x.pairAddress).isSome ∧
      x.uniqueKey = timeKey x.timestamp x.pairAddress := by
  obtain ⟨a, ha, hx⟩ := mem_accumulate.1 hx
  obtain ⟨rfl, hkey, -⟩ := PoolState.mem_history (mem_of_mem_lastPerTime hx)
  exact ⟨ha, hkey⟩

theorem eq_of_mem_accumulate (hx : x ∈ accumulate r seeds swaps liquidity)
    (hy : y ∈ accumulate r seeds swaps liquidity) (haddress : x.pairAddress = y.pairAddress)
    (htime : x.timestamp = y.timestamp) : x = y := by
  obtain ⟨a, -, hx⟩ := mem_accumulate.1 hx
  obtain ⟨b, -, hy⟩ := mem_accumulate.1 hy
  obtain ⟨rfl, -⟩ := PoolState.mem_history (mem_of_mem_lastPerTime hx)
  obtain ⟨hb, -⟩ := PoolState.mem_history (mem_of_mem_lastPerTime hy)
  rw [← hb, ← haddress] at hy
  exact eq_of_mem_lastPerTime hx hy htime

theorem agree_accumulate (hfiled : ∀ x ∈ accumulate r seeds swaps liquidity, x.Filed) :
    TableId.snapshots.schema.Agree
      (((accumulate r seeds swaps liquidity).map Record.row).map Row.stored) := by
  rw [Record.map_stored_row]
  intro row hrow row' hrow' hkey
  obtain ⟨x, hx, rfl⟩ := List.mem_map.1 hrow
  obtain ⟨y, hy, rfl⟩ := List.mem_map.1 hrow'
  obtain ⟨htime, haddress⟩ := ((hfiled x hx).keyOf_eq (hfiled y hy)).1 hkey
  rw [eq_of_mem_accumulate hx hy haddress htime]

end Snapshot

namespace Indexer.Applies

variable {ix : Indexer} {k : Querier} {s : Store} {txs : List Transaction} {next : Height}
  {x : Extraction} {b : Batch} (h : ix.Applies k s txs next x b)
include h

theorem owned {y : Snapshot} (hy : y ∈ b.snapshots) :
    (ix.registry.byAddress? y.pairAddress).isSome := by
  obtain ⟨seeds, hsnapshots⟩ := h.settled.snapshots
  exact (Snapshot.key_of_mem_accumulate (hsnapshots ▸ hy)).1

theorem filed : ∀ y ∈ b.snapshots, y.Filed := by
  obtain ⟨seeds, hsnapshots⟩ := h.settled.snapshots
  exact fun y hy => ⟨h.fits.snapshots y hy, (Snapshot.key_of_mem_accumulate (hsnapshots ▸ hy)).2⟩

theorem mem_snapshots {row : Row} : row ∈ (s.after b).snapshots ↔
    row ∈ b.snapshots.map Record.stored ∨ (∀ row' ∈ b.snapshots.map Record.stored,
      TableId.snapshots.schema.keyOf row' ≠ TableId.snapshots.schema.keyOf row) ∧
        row ∈ s.snapshots := by
  obtain ⟨seeds, hsnapshots⟩ := h.settled.snapshots
  have hagree := Snapshot.agree_accumulate (hsnapshots ▸ h.filed)
  rw [← hsnapshots] at hagree
  have hmem : row ∈ TableId.snapshots.schema.insertEach s.snapshots
      (b.snapshots.map Record.row) ↔ _ := TableSchema.mem_insertEach_of_agree rfl hagree
  rwa [Record.map_stored_row] at hmem

end Indexer.Applies

end PoolLedger
