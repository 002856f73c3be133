import PoolLedger.Proofs.History
import PoolLedger.Proofs.Store.Record

/-! One pool in the table of reserves. Its rows are the last snapshots of the times of one
history, and the latest of them is the state that the history has come to. So what a batch
adds to that state carries the history on, and its snapshots take their places in it. -/

namespace PoolLedger

open PoolChange (inChainOrder)

def PoolChange.SameTimes (changes : List PoolChange) : Prop :=
  ∀ c ∈ changes, ∀ d ∈ changes, c.position.height = d.position.height → c.timestamp = d.timestamp

theorem PoolChange.SameTimes.subset {changes changes' : List PoolChange} (h : SameTimes changes)
    (hsub : changes' ⊆ changes) : SameTimes changes' :=
  fun c hc d hd => h c (hsub hc) d (hsub hd)

/-- The rows of a pool are the last snapshots of the times of a history, and all fit. -/
structure PoolTable (address : String) (start : PoolState) (changes : List PoolChange)
    (rows : List Row) : Prop where
  mem_iff : ∀ row, row ∈ rows ∧ row.textIs 0 address = true ↔
    ∃ x ∈ Snapshot.lastPerTime (start.history address (inChainOrder changes)),
      row = Record.stored x
  fits : ∀ x ∈ Snapshot.lastPerTime (start.history address (inChainOrder changes)),
    Record.Fits x

namespace PoolState

variable {address : String} {start : PoolState} {changes : List PoolChange}

theorem height_lt_last (htimes : PoolChange.SameTimes changes) {x z : Snapshot}
    (hz : (start.history address (inChainOrder changes)).getLast? = some z)
    (hx : x ∈ Snapshot.lastPerTime (start.history address (inChainOrder changes))) (hne : x ≠ z) :
    x.height < z.height := by
  obtain ⟨-, -, c, hc, hch, hct⟩ := mem_history (Snapshot.mem_of_mem_lastPerTime hx)
  obtain ⟨d, hd, z', hz', hzh, hzt, -⟩ := getLast?_history address start _ (List.ne_nil_of_mem hc)
  obtain rfl : z' = z := Option.some.inj (hz'.symm.trans hz)
  obtain ⟨hdm, hmax⟩ := PoolChange.height_le_getLast hd
  have hcm := PoolChange.mem_inChainOrder.1 hc
  have hle := hmax c hcm
  by_contra hlt
  have heq : c.position.height = d.position.height := by
    simp only [hch, hzh, Ranged.lt_def] at hlt
    rw [Ranged.le_def] at hle
    exact Ranged.ext (by omega)
  apply hne
  apply Snapshot.eq_of_mem_lastPerTime hx (Snapshot.getLast_mem_lastPerTime hz)
  rw [hct, hzt]
  exact htimes c hcm d hdm heq

theorem exists_last (address : String) (start : PoolState) (hne : changes ≠ []) :
    ∃ z, (start.history address (inChainOrder changes)).getLast? = some z ∧
      ofSnapshot z = start.after (inChainOrder changes) := by
  obtain ⟨c, hc⟩ := List.exists_mem_of_ne_nil _ hne
  obtain ⟨-, -, z, hz, -, -, hs⟩ := getLast?_history address start (inChainOrder changes)
    (List.ne_nil_of_mem (PoolChange.mem_inChainOrder.2 hc))
  exact ⟨z, hz, hs⟩

end PoolState

theorem Store.bound_val {h : Height} (hw : IsWord h.val) : (Store.bound h).val = h.val := by
  obtain ⟨h₁, h₂⟩ := hw
  simp only [Store.bound, Ranged.pull_val]
  omega

namespace PoolTable

variable {address : String} {start : PoolState} {changes : List PoolChange} {s : Store}
  {rows : List Row}

theorem empty (address : String) (start : PoolState) : PoolTable address start [] [] where
  mem_iff _ := by simp [inChainOrder, PoolState.history, Snapshot.lastPerTime, Ascending.ofList]
  fits _ hx := absurd (Snapshot.mem_of_mem_lastPerTime hx) (by simp [inChainOrder, PoolState.history])

theorem restart (h : PoolTable address start [] rows) (start' : PoolState) :
    PoolTable address start' [] rows := by
  have hnil : start'.history address (inChainOrder []) = start.history address (inChainOrder []) := by
    simp [inChainOrder, PoolState.history]
  exact ⟨hnil ▸ h.mem_iff, hnil ▸ h.fits⟩

theorem latestReserveBefore_eq (ht : PoolTable address start changes s.snapshots)
    (htimes : PoolChange.SameTimes changes) {h : Height}
    (hb : ∀ c ∈ changes, c.position.height.val < (Store.bound h).val) :
    s.latestReserveBefore address h =
      .ok (start.history address (inChainOrder changes)).getLast? := by
  have hrows {row : Row} : row ∈ s.snapshots.filter (fun r => r.textIs 0 address &&
      r.integerAt 4 < (Store.bound h).val) ↔
        ∃ x ∈ Snapshot.lastPerTime (start.history address (inChainOrder changes)),
          row = Record.stored x := by
    rw [List.mem_filter, Bool.and_eq_true, ← and_assoc, ht.mem_iff]
    -- every snapshot has the height of a change, so none is left out
    refine and_iff_left_of_imp ?_
    rintro ⟨x, hx, rfl⟩
    obtain ⟨-, -, c, hc, hch, -⟩ := PoolState.mem_history (Snapshot.mem_of_mem_lastPerTime hx)
    have hlt := hb c (PoolChange.mem_inChainOrder.1 hc)
    rw [(integerAt_stored_snapshot (ht.fits x hx)).1, hch]
    simpa using hlt
  simp only [Store.latestReserveBefore]
  cases hz : (start.history address (inChainOrder changes)).getLast? with
  | none =>
    rw [List.getLast?_eq_none_iff] at hz
    have hnil : s.snapshots.filter (fun r => r.textIs 0 address &&
        r.integerAt 4 < (Store.bound h).val) = [] := by
      rw [List.eq_nil_iff_forall_not_mem]
      intro row hrow
      obtain ⟨x, hx, -⟩ := hrows.1 hrow
      have hm := Snapshot.mem_of_mem_lastPerTime hx
      rw [hz] at hm
      cases hm
    rw [hnil, Store.latestBy, List.mergeSort_nil]
    rfl
  | some z =>
    have hzm := Snapshot.getLast_mem_lastPerTime hz
    have hzf := ht.fits z hzm
    rw [Store.latestBy_eq_some (hrows.2 ⟨z, hzm, rfl⟩)]
    · rw [Option.mapM_some, row_snapshot_stored hzf]
      rfl
    · intro row hrow hne
      obtain ⟨x, hx, rfl⟩ := hrows.1 hrow
      have hlt := PoolState.height_lt_last htimes hz hx fun e => hne (by rw [e])
      rw [Ranged.lt_def] at hlt
      have hx4 := (integerAt_stored_snapshot (ht.fits x hx)).1
      have hz4 := (integerAt_stored_snapshot hzf).1
      simp only [Row.upTo, hx4, hz4, Bool.or_eq_true, Bool.and_eq_true, decide_eq_true_eq]
      omega

theorem key_eq {state : PoolState} {cs : List PoolChange} {x : Snapshot}
    (hx : x ∈ Snapshot.lastPerTime (state.history address cs)) :
    TableId.snapshots.schema.keyOf (Record.stored x) =
      some (.text (timeKey x.timestamp address)) := by
  rw [keyOf_stored_snapshot, (PoolState.mem_history (Snapshot.mem_of_mem_lastPerTime hx)).2.1]

/-- The snapshots of the next changes take the places of those at their times. -/
theorem insert {new all : List PoolChange} {state : PoolState} {rows' : List Row}
    (ht : PoolTable address start changes rows)
    (hall : inChainOrder all = inChainOrder changes ++ inChainOrder new)
    (hstate : new ≠ [] → state = start.after (inChainOrder changes))
    (hrows : ∀ row, row ∈ rows' ∧ row.textIs 0 address = true ↔
      (∃ x ∈ Snapshot.lastPerTime (state.history address (inChainOrder new)),
        row = Record.stored x) ∨
      (row ∈ rows ∧ row.textIs 0 address = true) ∧
        ∀ y ∈ Snapshot.lastPerTime (state.history address (inChainOrder new)),
          TableId.snapshots.schema.keyOf (Record.stored y) ≠
            TableId.snapshots.schema.keyOf row)
    (hfits : ∀ x ∈ Snapshot.lastPerTime (state.history address (inChainOrder new)),
      Record.Fits x) :
    PoolTable address start all rows' := by
  have hhistory : start.history address (inChainOrder all) =
      start.history address (inChainOrder changes) ++
        state.history address (inChainOrder new) := by
    rw [hall, PoolState.history_append]
    by_cases hne : new = []
    · simp [hne, inChainOrder, PoolState.history]
    · rw [hstate hne]
  refine ⟨fun row => ?_, fun x hx => ?_⟩
  · rw [hrows, ht.mem_iff, hhistory]
    constructor
    · rintro (⟨x, hx, rfl⟩ | ⟨⟨x, hx, rfl⟩, hkeys⟩)
      · exact ⟨x, Snapshot.mem_lastPerTime_append.2 (.inl hx), rfl⟩
      · -- the row has stayed, so no change of its time was among the new ones
        refine ⟨x, Snapshot.mem_lastPerTime_append.2 (.inr ⟨hx, fun y hy hyt => ?_⟩), rfl⟩
        obtain ⟨z, hz, hzt⟩ := Snapshot.exists_mem_lastPerTime hy
        exact hkeys z hz (by rw [key_eq hz, key_eq hx, hzt, hyt])
    · rintro ⟨x, hx, rfl⟩
      rcases Snapshot.mem_lastPerTime_append.1 hx with hx | ⟨hx, hlast⟩
      · exact .inl ⟨x, hx, rfl⟩
      · refine .inr ⟨⟨x, hx, rfl⟩, fun y hy hkey => ?_⟩
        rw [key_eq hy, key_eq hx, Option.some.injEq, Cell.text.injEq, timeKey_inj] at hkey
        exact hlast y (Snapshot.mem_of_mem_lastPerTime hy) hkey.1
  · rw [hhistory, Snapshot.mem_lastPerTime_append] at hx
    exact hx.elim (hfits x) fun hx => ht.fits x hx.1

end PoolTable

end PoolLedger
