import PoolLedger.Proofs.Arithmetic
import PoolLedger.Proofs.CandleTable
import PoolLedger.Proofs.Reporting
import PoolLedger.Proofs.Runs
import PoolLedger.Proofs.Store.Readable
import PoolLedger.Proofs.Store.Transaction

/-! When a pass leaves the range of its values. Over a store that was only
written by an indexer this has one cause: the volume of a candle, which is added
up before any row is checked. All other values that are too large are refused
by the store. -/

namespace PoolLedger

theorem Ranged.ofInt?_eq_none_iff {lo hi : Int} {n : Int} :
    (ofInt? n : Option (Ranged lo hi)) = none ↔ n < lo ∨ hi < n := by
  unfold ofInt?
  split
  · simp only [reduceCtorEq, false_iff]
    omega
  · simp only [true_iff]
    omega

namespace Candle

variable {swaps new : List Swap} {b : PairBucket}

theorem foldlM_checkedAdd (a : Amount) (xs : List Amount) :
    xs.foldlM Ranged.checkedAdd a = Ranged.ofInt? (a.val + (xs.map Ranged.val).sum) := by
  induction xs generalizing a with
  | nil => simp [Ranged.ofInt?_val]
  | cons x xs ih =>
    have hsum := Ranged.sum_nonneg xs
    rw [List.foldlM_cons, List.map_cons, List.sum_cons, ← Int.add_assoc]
    cases h : a.checkedAdd x with
    | none =>
      -- what follows is not negative, so it does not bring the sum back
      symm
      rw [Ranged.checkedAdd, Ranged.ofInt?_eq_none_iff] at h
      refine Ranged.ofInt?_eq_none_iff.2 ?_
      have := a.lo_le
      have := x.lo_le
      omega
    | some c =>
      have hc : c.val = a.val + x.val := Ranged.ofInt?_eq_some_iff.1 h
      exact hc ▸ ih c

theorem checkedSum_eq_none {xs : List Amount} :
    checkedSum xs = none ↔ Amount.max < (xs.map Ranged.val).sum := by
  have hsum := Ranged.sum_nonneg xs
  rw [checkedSum, foldlM_checkedAdd, Ranged.ofInt?_eq_none_iff, Amount.zero_val, Amount.max]
  omega

def volumeIn (swaps : List Swap) (b : PairBucket) : Int :=
  (((swaps.filter fun x => x.bucket = b).map Swap.baseAmount).map Ranged.val).sum

theorem volumeIn_eq_ordered (swaps : List Swap) (b : PairBucket) :
    volumeIn swaps b =
      (((inChainOrder (swaps.filter fun x => x.bucket = b)).map Swap.baseAmount).map
        Ranged.val).sum :=
  (((List.mergeSort_perm _ _).map _).map _).sum_eq.symm

theorem ofBucket?_eq_none : ofBucket? swaps b = none ↔ Amount.max < volumeIn swaps b := by
  rw [volumeIn_eq_ordered, ofBucket?]
  split
  · rename_i h
    rw [h]
    decide
  · rename_i first rest h
    rw [h, Option.map_eq_none_iff, ofOrdered?, ← checkedSum_eq_none]
    cases checkedSum ((first :: rest).map Swap.baseAmount) <;> simp

theorem build?_eq_none :
    build? swaps = none ↔ ∃ x ∈ swaps, Amount.max < volumeIn swaps x.bucket := by
  simp only [← ofBucket?_eq_none, Option.eq_none_iff_forall_ne_some]
  constructor
  · intro h
    by_contra hall
    simp only [not_exists, not_and, not_forall, not_not] at hall
    obtain ⟨cs, hcs⟩ := exists_build? hall
    exact h cs hcs
  · rintro ⟨x, hx, hnone⟩ cs hcs
    obtain ⟨l, hl⟩ := (build?_eq_some hcs).1 x hx
    exact hnone l hl

theorem volumeIn_rebuilt (hb : ∃ y ∈ new, y.bucket = b) :
    volumeIn (inBucketsOf swaps new ++ unstored swaps new) b =
      volumeIn (swaps ++ unstored swaps new) b := by
  rw [volumeIn_eq_ordered, volumeIn_eq_ordered, List.filter_append, List.filter_append,
    filter_inBucketsOf hb, inChainOrder_append]

theorem exists_of_volumeIn (h : 0 < volumeIn swaps b) : ∃ x ∈ swaps, x.bucket = b := by
  cases hf : swaps.filter fun x => x.bucket = b with
  | nil =>
    rw [volumeIn, hf] at h
    exact absurd h (by decide)
  | cons x rest =>
    obtain ⟨hx, hxb⟩ := List.mem_filter.1 (hf ▸ List.mem_cons_self : x ∈ swaps.filter _)
    exact ⟨x, hx, of_decide_eq_true hxb⟩

/-- The stored swaps of the bucket of a new one and the new ones that are not
stored move more than an amount can hold. -/
def Overfull (stored new : List Swap) : Prop :=
  ∃ y ∈ new, Amount.max < volumeIn (stored ++ unstored stored new) y.bucket

instance (stored new : List Swap) : Decidable (Overfull stored new) :=
  inferInstanceAs (Decidable (∃ y ∈ new, _))

theorem overfull_iff :
    build? (inBucketsOf swaps new ++ unstored swaps new) = none ↔ Overfull swaps new := by
  rw [build?_eq_none]
  constructor
  · rintro ⟨x, hx, hmax⟩
    obtain ⟨y, hy, hyx⟩ : ∃ y ∈ new, y.bucket = x.bucket := by
      rcases List.mem_append.1 hx with hx | hx
      · exact (mem_inBucketsOf.1 hx).2
      · exact ⟨x, (List.mem_filter.1 hx).1, rfl⟩
    rw [← hyx, volumeIn_rebuilt ⟨y, hy, rfl⟩] at hmax
    exact ⟨y, hy, hmax⟩
  · rintro ⟨y, hy, hmax⟩
    rw [← volumeIn_rebuilt ⟨y, hy, rfl⟩] at hmax
    obtain ⟨x, hx, hxy⟩ := exists_of_volumeIn (Int.lt_trans (by decide) hmax)
    exact ⟨x, hx, hxy ▸ hmax⟩

end Candle

structure Batch.Reported (b : Batch) (result : Except Fault Outcome) : Prop where
  applied : (∃ m, result = .ok (.applied m)) ↔ b.Fits
  mismatch : (∃ m, result = .error (.failed (.schemaMismatch m))) ↔ ¬ b.RowsFit
  checkpoint : result = .error (.failed (.internal
    ("checkpoint " ++ toString b.checkpoint ++ " out of range"))) ↔
      b.RowsFit ∧ ¬ IsWord b.checkpoint.val

namespace Indexer

open Asking
open Candle (Overfull)

variable {ix : Indexer} {source : SegmentSource} {s : Store} {txs : List Transaction}
  {o next : Height} {stored new : List Swap}

theorem rebuildCandles_error (hs : s.swaps = stored.map Record.stored)
    (hf : ∀ x ∈ stored, Record.Fits x) {f : Fault} :
    rebuildCandles s new = .error f ↔ f = .overflow ∧ Overfull stored new := by
  rw [rebuildCandles_eq hs hf, ← Candle.overfull_iff]
  cases Candle.build? (Candle.inBucketsOf stored new ++ Candle.unstored stored new) with
  | none => simp [Fault.ofOption, eq_comm]
  | some cs => simp [Fault.ofOption]

theorem process_cases (hread : s.Readable) (hs : s.swaps = stored.map Record.stored)
    (hf : ∀ x ∈ stored, Record.Fits x) (hwidth : 0 < ix.bucketWidth.val)
    (htimes : ∀ tx ∈ txs, 0 ≤ tx.timestamp.val) (next : Height) (k : Querier)
    (asked : List Query) : ∃ new : List Swap, ChainEvent.kept ix k txs = some new ∧
      ((Overfull stored new ∧ (ix.process s txs next k asked).1 = .error .overflow) ∨
        ¬ Overfull stored new ∧
          ∃ b m, (ix.process s txs next k asked).1 = .ok (b, m) ∧ b.swaps = new) := by
  obtain ⟨x, hx, hd⟩ : ∃ x, Extraction.Of ix.registry txs x ∧
      ix.Derivation s next x (ix.process s txs next k asked).1 := process_ends k asked
  have hbuckets {α : Type} [Timed α] {events : List α}
      (h : ∀ e ∈ events, ∃ tx ∈ txs, Timed.timestamp e = tx.timestamp) :
      ∃ moved, bucketed? ix.bucketWidth events = some moved := by
    refine exists_bucketed hwidth fun e he => ?_
    obtain ⟨tx, htx, htime⟩ := h e he
    exact htime ▸ htimes tx htx
  obtain ⟨new, hnew⟩ : ∃ new, bucketed? ix.bucketWidth (keepLast x.swaps) = some new := by
    refine hbuckets fun y hy => ?_
    obtain ⟨tx, htx, hfrom⟩ := hx.events _ (Extraction.mem_swaps.1 (mem_of_mem_keepLast hy))
    exact ⟨tx, htx, hfrom.stamped.2.1⟩
  obtain ⟨changes, hchanges⟩ : ∃ changes,
      bucketed? ix.bucketWidth (keepLast x.liquidity) = some changes := by
    refine hbuckets fun y hy => ?_
    obtain ⟨tx, htx, hfrom⟩ := hx.events _ (Extraction.mem_liquidity.1 (mem_of_mem_keepLast hy))
    exact ⟨tx, htx, hfrom.stamped.2.1⟩
  have herror {f : Fault} : rebuildCandles s new = .error f ↔ f = .overflow ∧ Overfull stored new :=
    rebuildCandles_error hs hf
  refine ⟨new, by rwa [hx.swaps k] at hnew, ?_⟩
  generalize (ix.process s txs next k asked).1 = v at hd
  cases hd with
  | unbucketed none =>
    rcases none with hnone | hnone
    · cases hnew.symm.trans hnone
    · cases hchanges.symm.trans hnone
  | unread e row =>
    rcases row with ⟨a, h, hrow⟩ | ⟨a, hrow⟩
    · obtain ⟨v, hv⟩ := hread.latestReserveBefore a h
      cases hrow.symm.trans hv
    · obtain ⟨v, hv⟩ := hread.latestApr a
      cases hrow.symm.trans hv
  | unbuilt swaps bucketed f candles =>
    cases hnew.symm.trans bucketed
    obtain ⟨rfl, hover⟩ := herror.1 candles
    exact .inl ⟨hover, rfl⟩
  | derived b m settled =>
    cases hnew.symm.trans settled.swaps
    refine .inr ⟨fun hover => ?_, b, m, rfl, rfl⟩
    cases settled.candles.symm.trans (herror.2 ⟨rfl, hover⟩)

theorem passFrom_result (ix : Indexer) (source : SegmentSource) (o : Height) (s : Store)
    (k : Querier) (asked : List Query) :
    (ix.passFrom source o s k asked).1.result =
      match source o with
      | .error e => .error (.failed e)
      | .ok ⟨txs, next⟩ =>
        if next = o then .ok .noNewData
        else
          match (ix.process s txs next k asked).1 with
          | .error f => .error f
          | .ok (b, m) =>
            match s.persist b with
            | .error e => .error (.failed e)
            | .ok _ => .ok (.applied { m with first := o }) := by
  unfold passFrom
  cases source o with
  | error e => rfl
  | ok segment =>
    obtain ⟨txs, next⟩ := segment
    simp only
    split
    · rfl
    · rw [bind_fst]
      cases (ix.process s txs next k asked).1 with
      | error f => rfl
      | ok v =>
        obtain ⟨b, m⟩ := v
        simp only
        cases s.persist b <;> rfl

theorem exists_offset (hread : s.Readable) (ix : Indexer) (p : Progress) :
    ∃ o, ix.offset p s = .ok o := by
  obtain ⟨v, hv⟩ := hread.loadCheckpoint
  unfold offset start
  split
  · exact ⟨_, rfl⟩
  · exact ⟨_, by rw [hv]; rfl⟩

def Overfills (ix : Indexer) (k : Querier) (source : SegmentSource) (o : Height)
    (stored : List Swap) : Prop :=
  ∃ txs next new, source o = .ok ⟨txs, next⟩ ∧ next ≠ o ∧ ChainEvent.kept ix k txs = some new ∧
    Overfull stored new

section Segment

variable (hread : s.Readable) (hs : s.swaps = stored.map Record.stored)
  (hf : ∀ x ∈ stored, Record.Fits x) (hwidth : 0 < ix.bucketWidth.val)
  (htimes : ∀ txs next, source o = .ok ⟨txs, next⟩ → ∀ tx ∈ txs, 0 ≤ tx.timestamp.val)
  (k : Querier) (asked : List Query)
include hread hs hf hwidth htimes

theorem passFrom_overflows_iff :
    (ix.passFrom source o s k asked).1.result = .error .overflow ↔
      ix.Overfills k source o stored := by
  rw [passFrom_result]
  constructor
  · intro h
    cases hsource : source o with
    | error e => simp [hsource] at h
    | ok segment =>
      obtain ⟨txs, next⟩ := segment
      obtain ⟨new, hnew, hcases⟩ :=
        process_cases hread hs hf hwidth (htimes txs next hsource) next k asked
      by_cases hmoved : next = o
      · simp [hsource, hmoved] at h
      · rcases hcases with ⟨hover, -⟩ | ⟨-, b, m, hb, -⟩
        · exact ⟨txs, next, new, hsource, hmoved, hnew, hover⟩
        · cases hp : s.persist b <;> simp [hsource, hmoved, hb, hp] at h
  · rintro ⟨txs, next, new, hsource, hmoved, hnew, hover⟩
    obtain ⟨new', hnew', ⟨-, h⟩ | ⟨hnot, -⟩⟩ :=
      process_cases hread hs hf hwidth (htimes txs next hsource) next k asked
    · simp only [hsource, if_neg hmoved, h]
    · cases hnew.symm.trans hnew'
      exact absurd hover hnot

theorem passFrom_reports (hsource : source o = .ok ⟨txs, next⟩) (hmoved : next ≠ o)
    (hover : ¬ ix.Overfills k source o stored) :
    ∃ b m, (ix.process s txs next k asked).1 = .ok (b, m) ∧
      ChainEvent.kept ix k txs = some b.swaps ∧
      b.Reported (ix.passFrom source o s k asked).1.result := by
  obtain ⟨new, hnew, ⟨hfull, -⟩ | ⟨-, b, m, hb, rfl⟩⟩ :=
    process_cases hread hs hf hwidth (htimes txs next hsource) next k asked
  · exact absurd ⟨txs, next, new, hsource, hmoved, hnew, hfull⟩ hover
  · refine ⟨b, m, hb, hnew, ?_⟩
    simp only [passFrom_result, hsource, if_neg hmoved, hb]
    rcases s.persist_cases b with ⟨hrows, e, he⟩ | ⟨hrows, hword, he⟩ | ⟨hrows, hword, he⟩
    · simp only [he]
      constructor <;> simp [Batch.fits_iff_rowsFit, hrows]
    · simp only [he]
      constructor <;> simp [Batch.fits_iff_rowsFit, hrows, hword]
    · simp only [he]
      constructor <;> simp [Batch.fits_iff_rowsFit, hrows, hword]

end Segment

/-- A pass leaves the range exactly when the base amounts of a bucket add up to more
than an amount can hold. Else it ends with a result: the segment is applied, or
the store refuses what is too large for it. -/
theorem pass_overflows_iff (ix : Indexer) (source : SegmentSource) (hs : s.Written)
    (hwidth : 0 < ix.bucketWidth.val)
    (htimes : ∀ o txs next, source o = .ok ⟨txs, next⟩ → ∀ tx ∈ txs, 0 ≤ tx.timestamp.val)
    (p : Progress) (k : Querier) (asked : List Query) :
    ∃ o stored, ix.offset p s = .ok o ∧ s.swaps.mapM Row.swap = .ok stored ∧
      ((ix.pass source p s k asked).1.result = .error .overflow ↔
        ix.Overfills k source o stored) ∧
      (∀ e, source o = .error e → (ix.pass source p s k asked).1.result = .error (.failed e)) ∧
      (∀ txs, source o = .ok ⟨txs, o⟩ → (ix.pass source p s k asked).1.result = .ok .noNewData) ∧
      (∀ txs next, source o = .ok ⟨txs, next⟩ → next ≠ o → ¬ ix.Overfills k source o stored →
        ∃ b m, (ix.process s txs next k asked).1 = .ok (b, m) ∧
          ChainEvent.kept ix k txs = some b.swaps ∧
          b.Reported (ix.pass source p s k asked).1.result) ∧
      (∀ (r : Reserves) pair share, r.fee? pair share = some (r.fee pair share)) ∧
      ∀ address (state : PoolState) changes,
        state.history? address changes = some (state.history address changes) := by
  have hread := hs.readable
  obtain ⟨stored, hrows, hf⟩ := hread.swaps
  obtain ⟨o, ho⟩ := exists_offset hread ix p
  rw [pass_of_offset ho]
  refine ⟨o, stored, ho, Store.swaps_read hrows hf,
    passFrom_overflows_iff hread hrows hf hwidth (htimes o) k asked, fun e he => ?_,
    fun txs hidle => ?_, fun txs next hsource hmoved hover => ?_, Reserves.fee?_eq,
    PoolState.history?_eq⟩
  · rw [passFrom_result, he]
  · simp only [passFrom_result, hidle, if_pos]
  · exact passFrom_reports hread hrows hf hwidth (htimes o) k asked hsource hmoved hover

end Indexer

open Sample in
def largeSales : Transaction :=
  reporting "swap" [sale "pool" "340282366920938463463374607431768211455", sale "pool" "1"]

open Sample in
theorem overfull_largeSales :
    ∃ new ∈ (ChainEvent.kept indexer querier [largeSales] : Option (List Swap)),
      Candle.Overfull [] new := by
  have hevents : Extraction.ofAll indexer.registry querier [largeSales] = _ :=
    Extraction.ofAll_written rfl (readExecutions_execution "swap" (by simp)) rfl
  rw [ChainEvent.kept, hevents]
  decide +kernel

namespace Indexer

theorem sales_overflow :
    Store.empty.Written ∧ 0 < Sample.indexer.bucketWidth.val ∧
      (∀ tx ∈ [largeSales], 0 ≤ tx.timestamp.val) ∧
      (Sample.indexer.pass (fun _ => .ok ⟨[largeSales], 120⟩) .new .empty Sample.querier
        []).1.result = .error .overflow := by
  have htimes : ∀ tx ∈ [largeSales], 0 ≤ tx.timestamp.val := by decide
  refine ⟨.opened, by decide, htimes, ?_⟩
  obtain ⟨o, stored, ho, hstored, hoverflow, -⟩ := pass_overflows_iff Sample.indexer
    (fun _ => .ok ⟨[largeSales], 120⟩) .opened (by decide)
    (fun o txs next h => by cases h; exact htimes) .new Sample.querier []
  cases ho
  cases hstored
  obtain ⟨new, hnew, hover⟩ := overfull_largeSales
  exact hoverflow.2 ⟨_, _, new, rfl, by decide, hnew, hover⟩

end Indexer

end PoolLedger
