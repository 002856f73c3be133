import PoolLedger.Proofs.CandleTable
import PoolLedger.Proofs.Emitters
import PoolLedger.Proofs.Reporting

/-! Reordering. Snapshots and candles are made of events in chain order, so the order in which
events are given counts only among those of one pool, or of one bucket, at one position. And
the snapshots of a pool are made of its own seed and its own events. -/

namespace PoolLedger

namespace Reordered

theorem swap {α β : Type} [DecidableEq β] {cls : α → β} {a b : α} (h : cls a ≠ cls b)
    (rest : List α) : Reordered cls (a :: b :: rest) (b :: a :: rest) := by
  refine ⟨.swap b a rest, fun c => ?_⟩
  by_cases ha : cls a = c
  · have hb : cls b ≠ c := fun hb => h (ha.trans hb.symm)
    simp [ha, hb]
  · simp [List.filter_cons, ha]

theorem filter_filter {α β γ : Type} [DecidableEq β] [DecidableEq γ] {f : α → β}
    {g : α → γ} {xs ys : List α} (h : Reordered (fun a => (f a, g a)) xs ys) (b : β) (c : γ) :
    (xs.filter fun a => f a = b).filter (fun a => g a = c) =
      (ys.filter fun a => f a = b).filter fun a => g a = c := by
  have hpair (zs : List α) : (zs.filter fun a => f a = b).filter (fun a => g a = c) =
      zs.filter fun a => (f a, g a) = (b, c) := by
    rw [List.filter_filter]
    refine List.filter_congr fun a _ => ?_
    rw [Bool.eq_iff_iff, Bool.and_eq_true, decide_eq_true_eq, decide_eq_true_eq, decide_eq_true_eq,
      Prod.mk.injEq, and_comm]
  rw [hpair, hpair, h.classes]

end Reordered

theorem Position.mergeSort_congr {α : Type} {f : α → Position} {xs ys : List α}
    (h : ∀ p, xs.filter (fun a => f a = p) = ys.filter fun a => f a = p) :
    xs.mergeSort (fun a b => (f a).le (f b)) = ys.mergeSort fun a b => (f a).le (f b) := by
  have htrans (a b c : α) := Position.le_trans (f a) (f b) (f c)
  have htotal (a b : α) := Position.le_total (f a) (f b)
  have hsame (a : α) :
      StableSort.same (fun a b => (f a).le (f b)) a = fun b => decide (f b = f a) := by
    funext b
    rw [Bool.eq_iff_iff, StableSort.same, decide_eq_true_eq, Bool.and_eq_true]
    constructor
    · exact fun hab => Position.le_antisymm hab.2 hab.1
    · intro hab
      rw [hab]
      exact ⟨StableSort.refl_of_total htotal a, StableSort.refl_of_total htotal a⟩
  refine StableSort.eq_mergeSort htrans htotal (List.pairwise_mergeSort htrans htotal xs) fun a => ?_
  rw [StableSort.filter_same_mergeSort htrans htotal, hsame, h]

namespace PoolChange

variable {swaps swaps' : List Swap} {liquidity liquidity' : List LiquidityChange}

theorem filter_all (p : PoolChange → Bool) (swaps : List Swap) (liquidity : List LiquidityChange) :
    (all swaps liquidity).filter p =
      all (swaps.filter fun s => p (.swap s)) (liquidity.filter fun e => p (.liquidity e)) := by
  rw [all, List.filter_append, List.filter_map, List.filter_map]
  rfl

theorem filter_all_filter (p : PoolChange → Bool) (swaps : List Swap)
    (liquidity : List LiquidityChange) :
    (all (swaps.filter fun s => p (.swap s)) (liquidity.filter fun e => p (.liquidity e))).filter
      p = (all swaps liquidity).filter p := by
  rw [← filter_all, List.filter_filter]
  simp only [Bool.and_self]

theorem mem_all_reordered (hs : swaps.Perm swaps') (hl : liquidity.Perm liquidity')
    {c : PoolChange} : c ∈ all swaps liquidity ↔ c ∈ all swaps' liquidity' :=
  ((hs.map _).append (hl.map _)).mem_iff

theorem inChainOrder_reordered
    (hs : Reordered (fun s : Swap => (s.pairAddress, s.position)) swaps swaps')
    (hl : Reordered (fun e : LiquidityChange => (e.pairAddress, e.position)) liquidity liquidity')
    (address : String) :
    inChainOrder (ofPool swaps liquidity address) =
      inChainOrder (ofPool swaps' liquidity' address) := by
  refine Position.mergeSort_congr fun p => ?_
  rw [ofPool, ofPool, filter_all, filter_all, filter_all, filter_all]
  exact congrArg₂ all (hs.filter_filter address p) (hl.filter_filter address p)

end PoolChange

namespace Snapshot

variable {r : Registry} {seeds seeds' : Seeds} {swaps swaps' : List Swap}
  {liquidity liquidity' : List LiquidityChange}

def changed (r : Registry) (swaps : List Swap) (liquidity : List LiquidityChange) : List String :=
  Ascending.ofList (fun a b : String => a < b)
    (((PoolChange.all swaps liquidity).filter fun c => (r.byAddress? c.pairAddress).isSome).map
      PoolChange.pairAddress)

theorem mem_changed {a : String} :
    a ∈ changed r swaps liquidity ↔
      (r.byAddress? a).isSome ∧ ∃ c ∈ PoolChange.all swaps liquidity, c.pairAddress = a := by
  rw [changed, Ascending.mem_ofList, List.mem_map]
  constructor
  · rintro ⟨c, hc, rfl⟩
    exact ⟨(List.mem_filter.1 hc).2, c, (List.mem_filter.1 hc).1, rfl⟩
  · rintro ⟨ha, c, hc, rfl⟩
    exact ⟨c, List.mem_filter.2 ⟨hc, ha⟩, rfl⟩

theorem accumulate_eq (r : Registry) (seeds : Seeds) (swaps : List Swap)
    (liquidity : List LiquidityChange) :
    accumulate r seeds swaps liquidity = (changed r swaps liquidity).flatMap fun a =>
      ofPool seeds a (PoolChange.ofPool swaps liquidity a) := by
  refine List.flatMap_congr fun a ha => ?_
  rw [filter_registered (mem_changed.1 ha).1]

theorem accumulate_reordered
    (hs : Reordered (fun s : Swap => (s.pairAddress, s.position)) swaps swaps')
    (hl : Reordered (fun e : LiquidityChange => (e.pairAddress, e.position)) liquidity liquidity') :
    accumulate r seeds swaps liquidity = accumulate r seeds swaps' liquidity' := by
  have hchanged : changed r swaps liquidity = changed r swaps' liquidity' := by
    refine String.linear.eq_of_mem_iff (Ascending.ofList_pairwise String.linear _)
      (Ascending.ofList_pairwise String.linear _) fun a => ?_
    rw [mem_changed, mem_changed]
    simp only [PoolChange.mem_all_reordered hs.perm hl.perm]
  rw [accumulate_eq, accumulate_eq, hchanged]
  refine List.flatMap_congr fun a _ => ?_
  rw [ofPool_eq, ofPool_eq, PoolChange.inChainOrder_reordered hs hl]

theorem changed_filter (address : String) :
    (changed r swaps liquidity).filter (fun a => a = address) =
      changed r (swaps.filter fun s => s.pairAddress = address)
        (liquidity.filter fun e => e.pairAddress = address) := by
  rw [changed, Ascending.ofList_filter String.linear, List.filter_map, List.filter_comm]
  exact congrArg (fun cs => Ascending.ofList _ ((List.filter _ cs).map _))
    (PoolChange.filter_all (fun c => c.pairAddress = address) swaps liquidity)

theorem pairAddress_of_mem_ofPool {address : String} {changes : List PoolChange} {x : Snapshot}
    (h : x ∈ ofPool seeds address changes) : x.pairAddress = address :=
  (PoolState.mem_history (mem_of_mem_lastPerTime h)).1

theorem accumulate_filter {address : String} (hseed : seeds'.find? address = seeds.find? address) :
    (accumulate r seeds swaps liquidity).filter (fun x => x.pairAddress = address) =
      accumulate r seeds' (swaps.filter fun s => s.pairAddress = address)
        (liquidity.filter fun e => e.pairAddress = address) := by
  have hothers : ∀ a ∈ changed r swaps liquidity, ¬ decide (a = address) = true →
      (ofPool seeds a (PoolChange.ofPool swaps liquidity a)).filter
        (fun x => x.pairAddress = address) = [] := by
    intro a _ ha
    rw [List.filter_eq_nil_iff]
    intro x hx
    rwa [pairAddress_of_mem_ofPool hx]
  rw [accumulate_eq, accumulate_eq, List.filter_flatMap, ← changed_filter,
    ← flatMap_filter_of_nil hothers]
  refine List.flatMap_congr fun a ha => ?_
  obtain rfl : a = address := of_decide_eq_true (List.mem_filter.1 ha).2
  have hown : PoolChange.ofPool (swaps.filter fun s => s.pairAddress = a)
      (liquidity.filter fun e => e.pairAddress = a) a = PoolChange.ofPool swaps liquidity a :=
    PoolChange.filter_all_filter (fun c => c.pairAddress = a) swaps liquidity
  rw [List.filter_eq_self.2 fun x hx => decide_eq_true (pairAddress_of_mem_ofPool hx), hown, ofPool,
    ofPool, hseed]

theorem accumulate_registered :
    accumulate r seeds swaps liquidity =
      accumulate r seeds (swaps.filter fun s => (r.byAddress? s.pairAddress).isSome)
        (liquidity.filter fun e => (r.byAddress? e.pairAddress).isSome) := by
  have hself := PoolChange.filter_all_filter (fun c => (r.byAddress? c.pairAddress).isSome) swaps
    liquidity
  rw [accumulate, accumulate, ← hself]
  rfl

end Snapshot

theorem Candle.build?_reordered {swaps swaps' : List Swap}
    (h : Reordered (fun s : Swap => (s.bucket, s.position)) swaps swaps') :
    build? swaps = build? swaps' := by
  have hbuckets : Ascending.ofList PairBucket.lt (swaps.map Swap.bucket) =
      Ascending.ofList PairBucket.lt (swaps'.map Swap.bucket) :=
    Ascending.ofList_congr PairBucket.linear fun b => (h.perm.map Swap.bucket).mem_iff
  have hbucket : ofBucket? swaps = ofBucket? swaps' := by
    funext b
    exact ofBucket?_congr (Position.mergeSort_congr fun p => h.filter_filter b p)
  rw [build?, build?, hbuckets, hbucket]

/-- Snapshots do not depend on the order of the events, but for those of one pool at one
position, and candles not on that of the swaps, but for those of one bucket at one position.
The snapshots at an address are those of its own events after its own seed, and what happens
at addresses that are no registered pair's is of no account. -/
theorem derived_by_position_and_pool (r : Registry) (seeds : Seeds) :
    (∀ swaps swaps' liquidity liquidity',
      Reordered (fun s : Swap => (s.pairAddress, s.position)) swaps swaps' →
      Reordered (fun e : LiquidityChange => (e.pairAddress, e.position)) liquidity liquidity' →
      Snapshot.accumulate r seeds swaps liquidity = Snapshot.accumulate r seeds swaps' liquidity') ∧
    (∀ swaps swaps', Reordered (fun s : Swap => (s.bucket, s.position)) swaps swaps' →
      Candle.build? swaps = Candle.build? swaps') ∧
    (∀ address seeds' swaps liquidity, Seeds.find? seeds' address = seeds.find? address →
      (Snapshot.accumulate r seeds swaps liquidity).filter (fun x => x.pairAddress = address) =
        Snapshot.accumulate r seeds' (swaps.filter fun s => s.pairAddress = address)
          (liquidity.filter fun e => e.pairAddress = address)) ∧
    ∀ swaps liquidity, Snapshot.accumulate r seeds swaps liquidity =
      Snapshot.accumulate r seeds (swaps.filter fun s => (r.byAddress? s.pairAddress).isSome)
        (liquidity.filter fun e => (r.byAddress? e.pairAddress).isSome) :=
  ⟨fun _ _ _ _ => Snapshot.accumulate_reordered, fun _ _ => Candle.build?_reordered,
    fun _ _ _ _ => Snapshot.accumulate_filter, fun _ _ => Snapshot.accumulate_registered⟩

open Sample in
theorem sales_by_position_and_pool :
    Snapshot.accumulate indexer.registry [] [sold 0, sold 1] [] =
        Snapshot.accumulate indexer.registry [] [sold 1, sold 0] [] ∧
      Candle.build? [sold 0, sold 1] =
        Candle.build? [sold 1, sold 0] ∧
      (Snapshot.accumulate indexer.registry [] [{ sold 0 with pairAddress := "elsewhere" }, sold 1]
          []).filter (fun x => x.pairAddress = "pool") =
        Snapshot.accumulate indexer.registry [("elsewhere", .of "elsewhere" 1 2 3 100 60)]
          [sold 1] [] := by
  obtain ⟨hsnapshots, hcandles, hpool, -⟩ :=
    derived_by_position_and_pool indexer.registry []
  exact ⟨hsnapshots _ _ _ _ (.swap (by decide) []) ⟨.nil, fun _ => rfl⟩,
    hcandles _ _ (.swap (by decide) []), hpool "pool" _ _ _ (by decide)⟩

end PoolLedger
