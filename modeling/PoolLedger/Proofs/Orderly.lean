import PoolLedger.Proofs.Filing
import PoolLedger.Proofs.YieldTable

/-! What a batch does to the lookup of seeds. Snapshots are kept under their
times, so a batch with a change of a pool in the bucket of its seed replaces the
seed, and only such a batch makes a later lookup tell something else. -/

namespace PoolLedger

namespace Store

theorem latestBy_filter {places : List Nat} {rows : List Row} {z : Row} (keep : Row → Bool)
    (h : latestBy places rows = some z) (hz : keep z) :
    latestBy places (rows.filter keep) = some z := by
  obtain ⟨front, hf⟩ := List.getLast?_eq_some_iff.1 h
  rw [latestBy, ← StableSort.filter_mergeSort (Row.upTo_trans places) (Row.upTo_total places), hf,
    List.filter_append, List.filter_singleton, hz]
  exact List.getLast?_concat

end Store

namespace Snapshot

variable {s s' : Store} {new : List Snapshot} {a : String} {h : Height}

def below (a : String) (h : Height) (r : Row) : Bool :=
  r.textIs 0 a && r.integerAt 4 < (Store.bound h).val

def spares (new : List Snapshot) (r : Row) : Bool :=
  !((new.map Record.row).map Row.stored).any fun row =>
    TableId.snapshots.schema.keyOf row = TableId.snapshots.schema.keyOf r

theorem latestReserveBefore_eq (s : Store) (a : String) (h : Height) :
    s.latestReserveBefore a h =
      (Store.latestBy [4, 5] (s.snapshots.filter (below a h))).mapM Row.snapshot :=
  rfl

theorem spares_stored (hnew : ∀ x ∈ new, x.Filed) {z : Snapshot} (hz : z.Filed)
    (hza : z.pairAddress = a) :
    spares new (Record.stored z) = true ↔
      ∀ x ∈ new, x.pairAddress = a → x.timestamp ≠ z.timestamp := by
  simp only [spares, Bool.not_eq_true', List.any_eq_false, decide_eq_true_eq]
  rw [Record.map_stored_row]
  constructor
  · intro hk x hx hxa ht
    exact hk _ (List.mem_map_of_mem hx) (((hnew x hx).keyOf_eq hz).2 ⟨ht, hxa.trans hza.symm⟩)
  · intro hk row hrow he
    obtain ⟨x, hx, rfl⟩ := List.mem_map.1 hrow
    obtain ⟨ht, hxa⟩ := ((hnew x hx).keyOf_eq hz).1 he
    exact hk x hx (hxa.trans hza) ht

theorem filter_below_insertAll (hnew : ∀ x ∈ new, x.Filed) (hs' : s'.snapshots = s.insertAll new)
    (hlow : ∀ x ∈ new, x.pairAddress = a → (Store.bound h).val ≤ x.height.val) :
    s'.snapshots.filter (below a h) = (s.snapshots.filter (below a h)).filter (spares new) := by
  obtain ⟨tail, he, ht⟩ := TableSchema.insertEach_eq_append (s := TableId.snapshots.schema) rfl
    s.snapshots (new.map Record.row)
  have htail : tail.filter (below a h) = [] := by
    rw [List.filter_eq_nil_iff]
    intro r hr hl
    have hm := ht r hr
    rw [Record.map_stored_row] at hm
    obtain ⟨x, hx, rfl⟩ := List.mem_map.1 hm
    obtain ⟨hta, hlt⟩ := Bool.and_eq_true_iff.1 hl
    rw [textIs_stored_snapshot] at hta
    rw [decide_eq_true_eq, (integerAt_stored_snapshot (hnew x hx).fits).1] at hlt
    have := hlow x hx hta
    omega
  have he' : s'.snapshots = s.snapshots.filter (spares new) ++ tail := hs'.trans he
  rw [he', List.filter_append, htail, List.append_nil, List.filter_comm]

theorem exists_of_latestBy
    (hs : ∀ row ∈ s.snapshots, ∃ x : Snapshot, row = Record.stored x ∧ x.Filed) {rows : List Row}
    (hsub : rows ⊆ s.snapshots.filter (below a h)) {w : Row}
    (hw : Store.latestBy [4, 5] rows = some w) :
    ∃ z : Snapshot, w = Record.stored z ∧ z.Filed ∧ z.pairAddress = a ∧ w ∈ rows ∧
      (some w).mapM Row.snapshot = .ok (some z) := by
  have hm := List.mem_mergeSort.1 (List.mem_of_getLast? hw)
  obtain ⟨hms, hl⟩ := List.mem_filter.1 (hsub hm)
  obtain ⟨z, rfl, hz⟩ := hs w hms
  refine ⟨z, rfl, hz, textIs_stored_snapshot.1 (Bool.and_eq_true_iff.1 hl).1, hm, ?_⟩
  rw [Option.mapM_some, row_snapshot_stored hz.fits]
  rfl

theorem latestReserveBefore_insertAll
    (hs : ∀ row ∈ s.snapshots, ∃ x : Snapshot, row = Record.stored x ∧ x.Filed)
    (hnew : ∀ x ∈ new, x.Filed) (hs' : s'.snapshots = s.insertAll new)
    (hlow : ∀ x ∈ new, x.pairAddress = a → (Store.bound h).val ≤ x.height.val) :
    s'.latestReserveBefore a h = s.latestReserveBefore a h ↔
      ∀ z, s.latestReserveBefore a h = .ok (some z) →
        ∀ x ∈ new, x.pairAddress = a → x.timestamp ≠ z.timestamp := by
  rw [latestReserveBefore_eq, latestReserveBefore_eq, filter_below_insertAll hnew hs' hlow]
  cases hold : Store.latestBy [4, 5] (s.snapshots.filter (below a h)) with
  | none =>
    -- there is no row to lose
    rw [Store.latestBy, List.getLast?_eq_none_iff] at hold
    have hnil := (List.mergeSort_perm (s.snapshots.filter (below a h)) (Row.upTo [4, 5])).symm
    rw [hold, List.perm_nil] at hnil
    rw [hnil, List.filter_nil, Store.latestBy, List.mergeSort_nil]
    refine iff_of_true rfl fun z hz => ?_
    cases hz
  | some w =>
    obtain ⟨z, rfl, hz, hza, -, hread⟩ := exists_of_latestBy hs (List.Subset.refl _) hold
    rw [hread]
    constructor
    · intro he y hy
      obtain rfl := Option.some.inj (Except.ok.inj hy)
      rw [← spares_stored hnew hz hza]
      cases hlatest : Store.latestBy [4, 5]
          ((s.snapshots.filter (below a h)).filter (spares new)) with
      | none =>
        rw [hlatest] at he
        cases he
      | some v =>
        obtain ⟨y, rfl, -, -, hm, hready⟩ :=
          exists_of_latestBy hs (fun _ hr => (List.mem_filter.1 hr).1) hlatest
        rw [hlatest, hready] at he
        obtain rfl := Option.some.inj (Except.ok.inj he)
        exact (List.mem_filter.1 hm).2
    · intro hk
      rw [Store.latestBy_filter _ hold ((spares_stored hnew hz hza).2 (hk z rfl)), hread]

end Snapshot

namespace Indexer

theorem moment_within {txs : List Transaction} {o next : Height}
    (h : ∀ tx ∈ txs, o ≤ tx.height ∧ tx.height < next) (hlt : o < next) :
    o ≤ (moment txs next).1 ∧ (moment txs next).1 < next := by
  have hfold (m : Height × Timestamp) (rest : List (Height × Timestamp)) :
      rest.foldl latest m ∈ m :: rest := by
    induction rest generalizing m with
    | nil => exact List.mem_cons_self
    | cons n rest ih =>
      have hl : latest m n = m ∨ latest m n = n := by
        unfold latest
        split
        · exact Or.inr rfl
        · exact Or.inl rfl
      rw [List.foldl_cons]
      rcases List.mem_cons.1 (ih (latest m n)) with he | hm
      · rcases hl with hl | hl <;> rw [he, hl] <;> simp
      · simp [hm]
  unfold moment
  split
  · have := o.lo_le
    have := next.le_hi
    simp only [Ranged.le_def, Ranged.lt_def, Ranged.satSub, Ranged.pull_val] at *
    change o.val ≤ max 0 (min (next.val - 1) _) ∧ max 0 (min (next.val - 1) _) < next.val
    omega
  · rename_i m rest hm
    have hmem := hfold m rest
    rw [← hm] at hmem
    obtain ⟨tx, htx, he⟩ := List.mem_map.1 hmem
    rw [← he]
    exact h tx htx

/-- Snapshots are kept under their times and pools, and yields lie below the next
segment. -/
structure Orderly (o : Height) (s : Store) : Prop where
  snapshots : ∀ row ∈ s.snapshots, ∃ x : Snapshot, row = Record.stored x ∧ x.Filed
  yields : ∀ row ∈ s.aprs, row.integerAt 1 < o.val

variable {ix : Indexer} {K : Segment → Querier → Prop} {k : Querier} {chain : Chain}
  {source : SegmentSource} {s : Store} {o next : Height} {x : Extraction} {b : Batch} {p : Progress}

theorem Takes.segment (hb : ix.Takes k source o s b) (honest : source.Honest chain) :
    o < b.checkpoint ∧ ix.Derives k s (chain.between o b.checkpoint) b.checkpoint b := by
  obtain ⟨txs, hsegment, hd⟩ := hb.derived
  obtain ⟨hle, htxs⟩ := honest o _ hsegment
  have hne := hb.moved
  simp only at hle htxs
  subst htxs
  simp only [Ranged.le_def, Ranged.lt_def, Ranged.ext_iff, ne_eq] at *
  exact ⟨by omega, hd⟩

theorem Takes.applies (hk : k.Steady) (hb : ix.Takes k source o s b)
    (honest : source.Honest chain) :
    ∃ x, ix.Applies k s (chain.between o b.checkpoint) b.checkpoint x b := by
  obtain ⟨m, hm⟩ := ((process_spec hk).2 b).2 (hb.segment honest).2
  exact process_applies hm hb.fits

theorem moment_between (chain : Chain) (h : o < next) :
    o ≤ (moment (chain.between o next) next).1 ∧ (moment (chain.between o next) next).1 < next :=
  moment_within (fun _ htx => (Chain.mem_between.1 htx).2) h

section Yields

variable {txs : List Transaction}

def triggers (ix : Indexer) (k : Querier) (txs : List Transaction)
    (liquidity : List LiquidityChange) : AprTriggers :=
  AprTriggers.collect ix.registry liquidity (Extraction.ofAll ix.registry k txs).staking

def pairsToRenew (ix : Indexer) (k : Querier) (txs : List Transaction)
    (liquidity : List LiquidityChange) : List Pair :=
  Apr.toRenew (ix.triggers k txs liquidity) ix.registry

def yieldOf (ix : Indexer) (k : Querier) (s : Store) (txs : List Transaction) (next : Height)
    (liquidity : List LiquidityChange) (p : Pair) : AprRecord :=
  Apr.renewed k ix.registry (ix.triggers k txs liquidity) (moment txs next).1 (moment txs next).2 p
    (Apr.pastOf s.latestApr p)

theorem yieldsAt (ix : Indexer) (k : Querier) (s : Store) (txs : List Transaction) (next : Height)
    (liquidity : List LiquidityChange) :
    YieldsAt Pair.address (moment txs next).1 (ix.yieldOf k s txs next liquidity) :=
  ⟨fun _ => rfl, fun _ => rfl, fun _ => rfl⟩

theorem Derives.yields (hk : k.Steady) (h : ix.Derives k s txs next b) :
    (∀ q ∈ ix.pairsToRenew k txs b.liquidity, ∃ past, s.latestApr q.address = .ok past) ∧
      b.aprs = (ix.pairsToRenew k txs b.liquidity).map (ix.yieldOf k s txs next b.liquidity) :=
  (Apr.refresh_ok hk).1 h.aprs

end Yields

namespace Orderly

theorem empty (o : Height) : Orderly o .empty := by
  constructor
  · intro row hrow
    cases hrow
  · intro row hrow
    cases hrow

theorem after (h : Orderly o s) (hlt : o < next)
    (hb : ix.Applies k s (chain.between o next) next x b) : Orderly next (s.after b) := by
  constructor
  · intro row hrow
    rcases hb.mem_snapshots.1 hrow with hrow | ⟨-, hrow⟩
    · obtain ⟨y, hy, rfl⟩ := List.mem_map.1 hrow
      exact ⟨y, rfl, hb.filed y hy⟩
    · exact h.snapshots row hrow
  · intro row hrow
    rcases (TableSchema.mem_insertEach_replace rfl).1 hrow with hl | ⟨-, hrow⟩
    · have hm := List.mem_reverse.1 (List.mem_of_find?_eq_some hl)
      rw [Record.map_stored_row] at hm
      obtain ⟨y, hy, rfl⟩ := List.mem_map.1 hm
      rw [integerAt_stored_apr (hb.fits.aprs y hy), hb.yields y hy]
      exact (moment_between chain hlt).2
    · exact Int.lt_trans (h.yields row hrow) hlt

end Orderly

end Indexer

end PoolLedger
