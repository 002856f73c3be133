import PoolLedger.Proofs.Store.Record

/-! Persisting a batch. It succeeds exactly when every record and the checkpoint
fit, and then the tables hold the old rows with the new ones put in one by one. -/

namespace PoolLedger

/-- Every record of a batch fits its table, and the checkpoint can be stored. -/
structure Batch.Fits (b : Batch) : Prop where
  swaps : ∀ x ∈ b.swaps, Record.Fits x
  liquidity : ∀ x ∈ b.liquidity, Record.Fits x
  snapshots : ∀ x ∈ b.snapshots, Record.Fits x
  candles : ∀ x ∈ b.candles, Record.Fits x
  aprs : ∀ x ∈ b.aprs, Record.Fits x
  checkpoint : IsWord b.checkpoint.val

namespace Store

def insertAll {α : Type} [Record α] (s : Store) (records : List α) : List Row :=
  (Record.table α).schema.insertEach (s.rows (Record.table α)) (records.map Record.row)

theorem mem_insertAll_again {α : Type} [Record α] {s s' : Store} {xs xs' : List α}
    (h : (Record.table α).schema.conflict = .replace)
    (hl : ∀ row, (Record.table α).schema.lastWith ((xs'.map Record.row).map Row.stored) row =
      (Record.table α).schema.lastWith ((xs.map Record.row).map Row.stored) row)
    (hs' : s'.rows (Record.table α) = s.insertAll xs) (row : Row) :
    row ∈ s'.insertAll xs' ↔ row ∈ s'.rows (Record.table α) := by
  rw [insertAll, hs', insertAll, TableSchema.mem_insertEach_again h hl]

def after (s : Store) (b : Batch) : Store where
  swaps := s.insertAll b.swaps
  liquidity := s.insertAll b.liquidity
  snapshots := s.insertAll b.snapshots
  candles := s.insertAll b.candles
  aprs := s.insertAll b.aprs
  pairs := s.pairs
  checkpoint := Ranged.ofInt? b.checkpoint.val

theorem saveCheckpoint_ok {s s' : Store} {h : Height} :
    s.saveCheckpoint h = .ok s' ↔
      IsWord h.val ∧ s' = { s with checkpoint := Ranged.ofInt? h.val } := by
  unfold saveCheckpoint
  by_cases hw : IsWord h.val
  · have hs : (Ranged.ofInt? h.val : Option Word) = some ⟨h.val, hw.1, hw.2⟩ :=
      Ranged.ofInt?_eq_some_iff.2 rfl
    simp [hs, hw, eq_comm]
  · have hn : (Ranged.ofInt? h.val : Option Word) = none := dif_neg hw
    simp [hn, hw]

theorem rows_of_saveCheckpoint {s s' : Store} {h : Height} (hs : s.saveCheckpoint h = .ok s')
    (t : TableId) : s'.rows t = s.rows t := by
  obtain ⟨-, rfl⟩ := saveCheckpoint_ok.1 hs
  cases t <;> rfl

theorem persist_ok {s s' : Store} {b : Batch} :
    s.persist b = .ok s' ↔ b.Fits ∧ s' = s.after b := by
  have hw (t : TableId) (s : Store) (rows : List Row) :
      (s.write t rows).1 = s.setRows t (t.schema.insertEach (s.rows t) rows) := by
    rw [← TableSchema.insertRows_fst]
    rfl
  unfold persist
  constructor
  · intro h
    cases h₁ : encode b.swaps with
    | error e => simp [h₁, bind, Except.bind] at h
    | ok swaps =>
    cases h₂ : encode b.liquidity with
    | error e => simp [h₁, h₂, bind, Except.bind] at h
    | ok liquidity =>
    cases h₃ : encode b.snapshots with
    | error e => simp [h₁, h₂, h₃, bind, Except.bind] at h
    | ok snapshots =>
    cases h₄ : encode b.candles with
    | error e => simp [h₁, h₂, h₃, h₄, bind, Except.bind] at h
    | ok candles =>
    cases h₅ : encode b.aprs with
    | error e => simp [h₁, h₂, h₃, h₄, h₅, bind, Except.bind] at h
    | ok aprs =>
    simp only [h₁, h₂, h₃, h₄, h₅, bind, Except.bind, saveCheckpoint_ok, hw] at h
    obtain ⟨rfl, f₁⟩ := encode_ok.1 h₁
    obtain ⟨rfl, f₂⟩ := encode_ok.1 h₂
    obtain ⟨rfl, f₃⟩ := encode_ok.1 h₃
    obtain ⟨rfl, f₄⟩ := encode_ok.1 h₄
    obtain ⟨rfl, f₅⟩ := encode_ok.1 h₅
    exact ⟨⟨f₁, f₂, f₃, f₄, f₅, h.1⟩, h.2⟩
  · rintro ⟨f, rfl⟩
    rw [encode_ok.2 ⟨rfl, f.swaps⟩, encode_ok.2 ⟨rfl, f.liquidity⟩, encode_ok.2 ⟨rfl, f.snapshots⟩,
      encode_ok.2 ⟨rfl, f.candles⟩, encode_ok.2 ⟨rfl, f.aprs⟩]
    simp only [bind, Except.bind, saveCheckpoint_ok, hw]
    exact ⟨f.checkpoint, rfl⟩

end Store

end PoolLedger
