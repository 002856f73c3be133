import PoolLedger.Proofs.ChainOrder
import PoolLedger.Proofs.Store.Persist
import PoolLedger.Proofs.Yield

/-! The table of yields. A batch writes records of one height, at most one of
each address, and they are the latest of their pairs until the next batch. -/

namespace PoolLedger

namespace TableSchema

theorem lastWith_map {α : Type} (s : TableSchema) (f : α → Row) (xs : List α) (row : Row) :
    s.lastWith (xs.map f) row =
      (xs.reverse.find? fun x => s.keyOf (f x) = s.keyOf row).map f := by
  rw [lastWith, ← List.map_reverse, List.find?_map]
  rfl

end TableSchema

/-- Records at one height, each under the key of its address. -/
structure YieldsAt {ι : Type} (address : ι → String) (h : Height) (g : ι → AprRecord) : Prop where
  pairAddress : ∀ p, (g p).pairAddress = address p
  height : ∀ p, (g p).height = h
  key : ∀ p, (g p).uniqueKey = heightKey h (address p)

section Last

variable {ι : Type}

def IsLastAt (address : ι → String) (entries : List ι) (q : ι) : Prop :=
  entries.reverse.find? (fun p => address p = address q) = some q

theorem exists_isLastAt (address : ι → String) {entries : List ι} {p : ι} (hp : p ∈ entries) :
    ∃ q, IsLastAt address entries q ∧ q ∈ entries ∧ address q = address p := by
  cases hf : entries.reverse.find? fun x => address x = address p with
  | none => simpa using List.find?_eq_none.1 hf p (List.mem_reverse.2 hp)
  | some q =>
    have hq : address q = address p := by simpa using List.find?_some hf
    refine ⟨q, ?_, List.mem_reverse.1 (List.mem_of_find?_eq_some hf), hq⟩
    rw [IsLastAt, hq, hf]

end Last

theorem Store.latestApr_eq_some {s : Store} {x : AprRecord} (hx : Record.Fits x)
    (hmem : Record.stored x ∈ s.aprs)
    (hlow : ∀ row ∈ s.aprs, row.textIs 0 x.pairAddress = true → row ≠ Record.stored x →
      row.integerAt 1 < x.height.val) :
    s.latestApr x.pairAddress =
      .ok (some { x with apr := if x.apr == 0.0 then 0.0 else x.apr }) := by
  have hz : Record.stored x ∈ (s.aprs.filter fun r => r.textIs 0 x.pairAddress).reverse :=
    List.mem_reverse.2 (List.mem_filter.2 ⟨hmem, textIs_stored_apr.2 rfl⟩)
  rw [Store.latestApr, Store.latestBy_eq_some hz]
  · rw [Option.mapM_some, row_apr_stored hx]
    rfl
  · intro row hrow hne
    obtain ⟨hrow, ht⟩ := List.mem_filter.1 (List.mem_reverse.1 hrow)
    have hlt := hlow row hrow ht hne
    simp only [Row.upTo, integerAt_stored_apr hx, Bool.or_eq_true, Bool.and_eq_true,
      decide_eq_true_eq]
    omega

namespace YieldsAt

variable {ι : Type} {address : ι → String} {entries : List ι} {h : Height} {g g' : ι → AprRecord}
  {s s' : Store} {row : Row}

theorem keyOf_eq (hy : YieldsAt address h g) (p : ι) :
    TableId.aprs.schema.keyOf (Record.stored (g p)) = some (.text (heightKey h (address p))) := by
  rw [keyOf_stored_apr, hy.key p]

theorem lastWith_eq_some (hy : YieldsAt address h g) {r : Row} :
    TableId.aprs.schema.lastWith (((entries.map g).map Record.row).map Row.stored) row = some r ↔
      ∃ q, IsLastAt address entries q ∧ r = Record.stored (g q) ∧
        TableId.aprs.schema.keyOf row = some (.text (heightKey h (address q))) := by
  have hm : ((entries.map g).map Record.row).map Row.stored =
      entries.map fun p => Record.stored (g p) := by
    rw [List.map_map, List.map_map]
    rfl
  rw [hm, TableSchema.lastWith_map, Option.map_eq_some_iff]
  simp only [hy.keyOf_eq]
  refine exists_congr fun q => ?_
  constructor
  · rintro ⟨hf, rfl⟩
    have hq := List.find?_some hf
    rw [decide_eq_true_eq, eq_comm] at hq
    refine ⟨?_, rfl, hq⟩
    rw [hq] at hf
    simpa [heightKey_inj, IsLastAt] using hf
  · rintro ⟨hq, rfl, hrow⟩
    refine ⟨?_, rfl⟩
    rw [hrow]
    simpa [heightKey_inj, IsLastAt] using hq

theorem mem_insertAll (hy : YieldsAt address h g) :
    row ∈ s.insertAll (entries.map g) ↔
      (∃ q, IsLastAt address entries q ∧ row = Record.stored (g q)) ∨
        TableId.aprs.schema.lastWith (((entries.map g).map Record.row).map Row.stored) row = none ∧
          row ∈ s.aprs := by
  have hr : row ∈ s.insertAll (entries.map g) ↔ row ∈ TableId.aprs.schema.insertEach s.aprs
      ((entries.map g).map Record.row) := Iff.rfl
  rw [hr, TableSchema.mem_insertEach_replace rfl, hy.lastWith_eq_some]
  refine or_congr_left (exists_congr fun q => and_congr_right fun _ => ?_)
  refine and_iff_left_of_imp fun he => ?_
  rw [he, hy.keyOf_eq]

theorem lower_insertAll (hy : YieldsAt address h g)
    (hold : ∀ row ∈ s.aprs, row.integerAt 1 < h.val)
    (hs : s'.aprs = s.insertAll (entries.map g)) {q : ι} (hq : IsLastAt address entries q) :
    Record.stored (g q) ∈ s'.aprs ∧
      ∀ row ∈ s'.aprs, row.textIs 0 (address q) = true → row ≠ Record.stored (g q) →
        row.integerAt 1 < h.val := by
  rw [hs]
  refine ⟨hy.mem_insertAll.2 (Or.inl ⟨q, hq, rfl⟩), fun row hrow ht hne => ?_⟩
  obtain ⟨x, hx, rfl⟩ | ⟨-, hrow⟩ := hy.mem_insertAll.1 hrow
  · -- of one address only one record is last
    rw [textIs_stored_apr, hy.pairAddress] at ht
    rw [IsLastAt, ht] at hx
    rw [IsLastAt, hx] at hq
    obtain rfl := Option.some.inj hq
    exact absurd rfl hne
  · exact hold row hrow

theorem latestApr_insertAll (hy : YieldsAt address h g) (hf : ∀ p ∈ entries, Record.Fits (g p))
    (hold : ∀ row ∈ s.aprs, row.integerAt 1 < h.val)
    (hs : s'.aprs = s.insertAll (entries.map g)) {q : ι} (hq : IsLastAt address entries q) :
    s'.latestApr (address q) =
      .ok (some { g q with apr := if (g q).apr == 0.0 then 0.0 else (g q).apr }) := by
  have hqm : q ∈ entries := List.mem_reverse.1 (List.mem_of_find?_eq_some hq)
  obtain ⟨hmem, hlow⟩ := hy.lower_insertAll hold hs hq
  rw [← hy.pairAddress q]
  rw [← hy.pairAddress q, ← hy.height q] at hlow
  exact Store.latestApr_eq_some (hf q hqm) hmem hlow

theorem mem_insertAll_again (hy : YieldsAt address h g) (hy' : YieldsAt address h g')
    (ha : ∀ q, IsLastAt address entries q → g' q = g q)
    (hs : s'.aprs = s.insertAll (entries.map g)) :
    row ∈ s'.insertAll (entries.map g') ↔ row ∈ s'.aprs := by
  have hs : s'.rows (Record.table AprRecord) = s.insertAll (entries.map g) := hs
  refine Store.mem_insertAll_again rfl (fun row => Option.ext fun r => ?_) hs row
  refine hy'.lastWith_eq_some.trans (Iff.trans ?_ hy.lastWith_eq_some.symm)
  refine exists_congr fun q => and_congr_right fun hq => ?_
  rw [ha q hq]

end YieldsAt

end PoolLedger
