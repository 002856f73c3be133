import Mathlib.Data.Int.Interval
import PoolLedger.Proofs.Overflow
import PoolLedger.Proofs.Redelivery

/-! Volumes. The rows of a pair in a span of time, the swaps read from them, and
its candles in that span come to the same totals. Volumes stop at the largest
amount, which the candles of a store never reach. -/

namespace PoolLedger

theorem Ranged.foldl_satAdd {hi : Int} (a : Ranged 0 hi) (xs : List (Ranged 0 hi)) :
    xs.foldl satAdd a = a.pull (a.val + (xs.map val).sum) := by
  induction xs generalizing a with
  | nil => simpa using a.pull_self.symm
  | cons x xs ih =>
    have hsum := sum_nonneg xs
    have := a.lo_le
    have := x.lo_le
    rw [List.foldl_cons, ih]
    ext
    simp only [satAdd, pull_val, List.map_cons, List.sum_cons]
    omega

namespace Volume

variable {swaps xs ys : List Swap}

theorem foldl_add (v : Volume) (swaps : List Swap) :
    swaps.foldl add v =
      ⟨(swaps.map Swap.baseAmount).foldl Ranged.satAdd v.base,
        (swaps.map Swap.quoteAmount).foldl Ranged.satAdd v.quote,
        (swaps.map fun _ => (1 : Height)).foldl Ranged.satAdd v.swaps⟩ := by
  induction swaps generalizing v with
  | nil => rfl
  | cons x swaps ih => exact ih (v.add x)

theorem ofSwaps_eq (swaps : List Swap) :
    ofSwaps swaps =
      ⟨(0 : Amount).pull ((swaps.map Swap.baseAmount).map Ranged.val).sum,
        (0 : Amount).pull ((swaps.map Swap.quoteAmount).map Ranged.val).sum,
        (0 : Height).pull swaps.length⟩ := by
  have hones : ((swaps.map fun _ => (1 : Height)).map Ranged.val).sum = (swaps.length : Int) := by
    simp [Height.one_val]
  rw [ofSwaps, foldl_add, Ranged.foldl_satAdd, Ranged.foldl_satAdd, Ranged.foldl_satAdd, hones]
  simp only [zero, Amount.zero_val, Height.zero_val, Int.zero_add]

theorem ofSwaps_perm (h : xs.Perm ys) : ofSwaps xs = ofSwaps ys := by
  rw [ofSwaps_eq, ofSwaps_eq, ((h.map _).map _).sum_eq, ((h.map _).map _).sum_eq, h.length_eq]

def entry (volumes : List (String × Volume)) (key : String) : Volume :=
  ((volumes.find? fun e => e.1 = key).map Prod.snd).getD zero

theorem entry_byPair (swaps : List Swap) (key : String) :
    entry (byPair swaps) key = ofSwaps (swaps.filter fun x => x.pairKey = key) := by
  rw [entry, byPair, List.find?_map, Option.map_map]
  cases hf : (Ascending.ofList (fun a b : String => a < b) (swaps.map Swap.pairKey)).find?
      ((fun e : String × Volume => decide (e.1 = key)) ∘
        fun k => (k, ofSwaps (swaps.filter fun x => x.pairKey = k))) with
  | some k =>
    have hk : k = key := by simpa using List.find?_some hf
    rw [hk]
    rfl
  | none =>
    -- a pair without a key has no swaps
    rw [List.find?_eq_none] at hf
    have hnone : swaps.filter (fun x => x.pairKey = key) = [] := by
      refine List.filter_eq_nil_iff.2 fun x hx hkey => ?_
      exact hf x.pairKey (Ascending.mem_ofList.2 (List.mem_map_of_mem hx)) hkey
    rw [hnone]
    rfl

theorem entry_byPair_between (swaps : List Swap) (key : String) (lo hi : Timestamp) :
    entry (byPair (Candle.inChainOrder (swaps.filter fun x => x.bucket.isBetween key lo hi))) key =
      ofSwaps (swaps.filter fun x => x.bucket.isBetween key lo hi) := by
  have hpair : (Candle.inChainOrder (swaps.filter fun x => x.bucket.isBetween key lo hi)).filter
      (fun x => x.pairKey = key) =
        Candle.inChainOrder (swaps.filter fun x => x.bucket.isBetween key lo hi) := by
    refine List.filter_eq_self.2 fun x hx => ?_
    have hbetween := (List.mem_filter.1 (List.mem_mergeSort.1 hx)).2
    exact decide_eq_true (PairBucket.isBetween_iff.1 hbetween).1
  rw [entry_byPair, hpair]
  exact ofSwaps_perm (List.mergeSort_perm _ _)

end Volume

namespace Store

variable {s : Store} {swaps : List Swap}

theorem row_volume_stored (v : Volume) {x : Swap} (h : Record.Fits x) :
    Row.volume v (Record.stored x) = .ok (v.add x) := by
  obtain ⟨ho, hr, -⟩ := fits_swap.1 h
  rw [stored_swap]
  simp only [Record.row, Cell.ofAmount, Cell.ofInt_of_isWord ho, Cell.ofInt_of_isWord hr,
    Row.volume, Row.amount, Ranged.ofInt?_val]
  cases hd : x.direction with
  | sell =>
    rw [Volume.add, Swap.baseAmount, Swap.quoteAmount, hd]
    rfl
  | buy =>
    rw [Volume.add, Swap.baseAmount, Swap.quoteAmount, hd]
    rfl

theorem foldlM_volume (v : Volume) {xs : List Swap} (hf : ∀ x ∈ xs, Record.Fits x) :
    (xs.map Record.stored).foldlM Row.volume v = .ok (xs.foldl Volume.add v) := by
  induction xs generalizing v with
  | nil => rfl
  | cons x xs ih =>
    rw [List.map_cons, List.foldlM_cons, row_volume_stored v (hf x List.mem_cons_self)]
    exact ih (v.add x) fun y hy => hf y (List.mem_cons_of_mem x hy)

theorem volume_eq (hs : s.swaps = swaps.map Record.stored) (hf : ∀ x ∈ swaps, Record.Fits x)
    (key : String) (lo hi : Timestamp) :
    s.volume key lo hi =
      .ok (Volume.ofSwaps (swaps.filter fun x => x.bucket.isBetween key lo hi)) := by
  have hbetween : ∀ x ∈ swaps.filter fun x => x.bucket.isBetween key lo hi, Record.Fits x :=
    fun x hx => hf x (List.mem_filter.1 hx).1
  rw [volume, swapRowsBetween_eq hs hf]
  generalize swaps.filter (fun x => x.bucket.isBetween key lo hi) = xs at hbetween
  have hsorted : (xs.map Record.stored).mergeSort (Row.upTo [15]) =
      (xs.mergeSort fun a b => Row.upTo [15] (Record.stored a) (Record.stored b)).map
        Record.stored := by
    symm
    apply List.map_mergeSort
    exact fun _ _ _ _ => rfl
  rw [hsorted, foldlM_volume _ fun x hx => hbetween x (List.mem_mergeSort.1 hx)]
  exact congrArg _ (Volume.ofSwaps_perm (List.mergeSort_perm _ _))

end Store

namespace Candle

variable {swaps : List Swap} {b : PairBucket} {c : Candle} {cs : List Candle}

def bucket (c : Candle) : PairBucket := ⟨c.pairKey, c.timestamp⟩

theorem volume_of_bucket (h : ofBucket? swaps b = some [c]) : c.volume.val = volumeIn swaps b := by
  rw [volumeIn_eq_ordered]
  unfold ofBucket? at h
  split at h
  · cases h
  · rename_i first rest hsorted
    obtain ⟨d, hd, hc⟩ := Option.map_eq_some_iff.1 h
    obtain rfl := (List.cons.inj hc).1
    simp only [ofOrdered?, Option.bind_eq_bind, Option.bind_eq_some_iff] at hd
    obtain ⟨v, hv, hd⟩ := hd
    cases hd
    rw [checkedSum, foldlM_checkedAdd, Ranged.ofInt?_eq_some_iff, Amount.zero_val,
      Int.zero_add] at hv
    rw [hsorted, ← hv]

theorem count_of_bucket (h : ofBucket? swaps b = some [c]) (hfits : Record.Fits c) :
    c.swapCount.val = (swaps.filter fun x => x.bucket = b).length := by
  obtain ⟨-, -, -, -, -, -, hword⟩ := fits_candle.1 hfits
  have hcount := (counts_of_bucket h).2
  rw [hcount] at hword ⊢
  simp only [Ranged.pull_val] at hword ⊢
  omega

theorem sum_buckets (w : Swap → Int) {buckets : List PairBucket} (hn : buckets.Nodup)
    (swaps : List Swap) :
    (buckets.map fun b => ((swaps.filter fun x => x.bucket = b).map w).sum).sum =
      ((swaps.filter fun x => x.bucket ∈ buckets).map w).sum := by
  induction buckets with
  | nil => simp
  | cons b buckets ih =>
    obtain ⟨hb, hn⟩ := List.nodup_cons.1 hn
    rw [List.map_cons, List.sum_cons, ih hn]
    clear ih
    induction swaps with
    | nil => rfl
    | cons x swaps ih =>
      by_cases hxb : x.bucket = b
      · have hx : x.bucket ∉ buckets := hxb ▸ hb
        simp [hxb, hb] at ih ⊢
        omega
      · by_cases hx : x.bucket ∈ buckets <;> simp [hxb, hx] at ih ⊢ <;> omega

theorem build?_columns (h : build? swaps = some cs) (hfits : ∀ c ∈ cs, Record.Fits c) :
    cs.map (fun c => (c.bucket, c.volume.val, c.swapCount.val)) =
      (Ascending.ofList PairBucket.lt (swaps.map Swap.bucket)).map fun b =>
        (b, volumeIn swaps b, ((swaps.filter fun x => x.bucket = b).length : Int)) := by
  refine build?_map (fun b c hc => ?_) h
  have hmem : c ∈ cs := ((build?_eq_some h).2 c).2 ⟨b, hc⟩
  rw [volume_of_bucket hc, count_of_bucket hc (hfits c hmem)]
  exact congrArg (·, _) (counts_of_bucket hc).1

section Sums

variable (h : build? swaps = some cs) (hfits : ∀ c ∈ cs, Record.Fits c)
  (key : String) (lo hi : Timestamp)
include h hfits

theorem sum_between (f : PairBucket × Int × Int → Int) (w : Swap → Int)
    (hf : ∀ b, f (b, volumeIn swaps b, ((swaps.filter fun x => x.bucket = b).length : Int)) =
      ((swaps.filter fun x => x.bucket = b).map w).sum) :
    ((cs.filter fun c => c.bucket.isBetween key lo hi).map fun c =>
      f (c.bucket, c.volume.val, c.swapCount.val)).sum =
        ((swaps.filter fun x => x.bucket.isBetween key lo hi).map w).sum := by
  have hcolumns := congrArg (fun l => (l.filter fun e => e.1.isBetween key lo hi).map f)
    (build?_columns h hfits)
  simp only [List.filter_map, List.map_map] at hcolumns
  have hnodup := (PairBucket.ofList_nodup (swaps.map Swap.bucket)).filter
    fun b => b.isBetween key lo hi
  calc _ = (((Ascending.ofList PairBucket.lt (swaps.map Swap.bucket)).filter fun b =>
          b.isBetween key lo hi).map fun b =>
            ((swaps.filter fun x => x.bucket = b).map w).sum).sum := by
        simp only [← hf]
        exact congrArg List.sum hcolumns
    _ = _ := by
        rw [sum_buckets w hnodup]
        congr 2
        refine List.filter_congr fun x hx => ?_
        rw [Bool.eq_iff_iff]
        simp only [List.mem_filter, Ascending.mem_ofList, decide_eq_true_eq]
        exact ⟨And.right, fun hb => ⟨List.mem_map_of_mem hx, hb⟩⟩

theorem sum_volumes :
    ((cs.filter fun c => c.bucket.isBetween key lo hi).map fun c => c.volume.val).sum =
      (((swaps.filter fun x => x.bucket.isBetween key lo hi).map Swap.baseAmount).map
        Ranged.val).sum := by
  rw [List.map_map]
  refine sum_between h hfits key lo hi (fun e => e.2.1) _ fun b => ?_
  rw [volumeIn, List.map_map]

theorem sum_counts :
    ((cs.filter fun c => c.bucket.isBetween key lo hi).map fun c => c.swapCount.val).sum =
      ((swaps.filter fun x => x.bucket.isBetween key lo hi).length : Int) := by
  have hones (xs : List Swap) : (xs.map fun _ => (1 : Int)).sum = xs.length := by simp
  rw [← hones]
  exact sum_between h hfits key lo hi (fun e => e.2.2) (fun _ => 1) fun b => (hones _).symm

end Sums

theorem nodup_buckets (h : build? swaps = some cs) : (cs.map bucket).Nodup := by
  have hmap : cs.map bucket = (Ascending.ofList PairBucket.lt (swaps.map Swap.bucket)).map id :=
    build?_map (fun b c hc => (counts_of_bucket hc).1) h
  rw [hmap, List.map_id]
  exact PairBucket.ofList_nodup (swaps.map Swap.bucket)

theorem length_between_le (h : build? swaps = some cs) (key : String) (lo hi : Timestamp) :
    (cs.filter fun c => c.bucket.isBetween key lo hi).length ≤ 18446744073709551616 := by
  have hbetween : ((cs.filter fun c => c.bucket.isBetween key lo hi).map bucket).Nodup :=
    (nodup_buckets h).sublist (List.filter_sublist.map bucket)
  -- within one pair the time tells the bucket
  have htimes : ((cs.filter fun c => c.bucket.isBetween key lo hi).map
      fun c => c.timestamp.val).Nodup := by
    rw [List.nodup_map_iff_inj_on hbetween.of_map]
    intro c hc d hd hcd
    refine List.inj_on_of_nodup_map hbetween hc hd ?_
    have hkey := (PairBucket.isBetween_iff.1 (List.mem_filter.1 hc).2).1
    have hkey' := (PairBucket.isBetween_iff.1 (List.mem_filter.1 hd).2).1
    exact congrArg₂ PairBucket.mk (hkey.trans hkey'.symm) (Ranged.ext hcd)
  have hsub : ((cs.filter fun c => c.bucket.isBetween key lo hi).map
      fun c => c.timestamp.val).toFinset ⊆
        Finset.Icc (-9223372036854775808) 9223372036854775807 := by
    intro n hn
    obtain ⟨c, -, rfl⟩ := List.mem_map.1 (List.mem_toFinset.1 hn)
    exact Finset.mem_Icc.2 ⟨c.timestamp.lo_le, c.timestamp.le_hi⟩
  have hcard := Finset.card_le_card hsub
  rw [List.toFinset_card_of_nodup htimes, List.length_map, Int.card_Icc] at hcard
  simpa using hcard

theorem sum_volumes_le (h : build? swaps = some cs) (hfits : ∀ c ∈ cs, Record.Fits c)
    (key : String) (lo hi : Timestamp) :
    ((cs.filter fun c => c.bucket.isBetween key lo hi).map fun c => c.volume.val).sum ≤
      Amount.max := by
  have hword : ∀ v ∈ (cs.filter fun c => c.bucket.isBetween key lo hi).map fun c => c.volume.val,
      v ≤ 9223372036854775807 := by
    refine List.forall_mem_map.2 fun c hc => ?_
    obtain ⟨-, -, -, -, hvolume, -⟩ := fits_candle.1 (hfits c (List.mem_filter.1 hc).1)
    exact hvolume.2
  -- at most one candle for each word, and a word for each volume: less than an amount can hold
  have hsum := List.sum_le_card_nsmul _ _ hword
  have hlength := length_between_le h key lo hi
  rw [List.length_map, nsmul_eq_mul] at hsum
  rw [Amount.max]
  omega

end Candle

namespace Indexer

variable {ix : Indexer} {fed : List Transaction} {s : Store} {swaps : List Swap}

theorem Keeps.candlesBetween_eq (h : ix.Keeps fed s swaps) {cs : List Candle}
    (hc : Candle.build? swaps = some cs) (hfits : ∀ c ∈ cs, Record.Fits c) (key : String)
    (lo hi : Timestamp) :
    ∃ found, s.candlesBetween key lo hi = .ok found ∧
      found.Perm ((cs.filter fun c => c.bucket.isBetween key lo hi).map Candle.kept) := by
  have hrows : (s.candles.filter fun r => r.textIs 0 key && r.within 1 lo hi).Perm
      ((cs.filter fun c => c.bucket.isBetween key lo hi).map Record.stored) := by
    have hstored (c : Candle) : ((Record.stored c).textIs 0 key && (Record.stored c).within 1 lo hi) =
        c.bucket.isBetween key lo hi := by
      rw [Bool.eq_iff_iff, Bool.and_eq_true, textIs_stored_candle, PairBucket.isBetween_iff,
        Row.within, integerAt_stored_candle]
      simp [Candle.bucket]
    have hperm := (h.candles_perm hc).filter fun r => r.textIs 0 key && r.within 1 lo hi
    rw [List.filter_map] at hperm
    simpa only [Function.comp_def, hstored] using hperm
  -- sorting the rows and reading them keeps what they are
  have hsorted := (List.mergeSort_perm _ (Row.upTo [1])).trans hrows
  obtain ⟨found, hfound⟩ : ∃ found, s.candlesBetween key lo hi = .ok found := by
    refine Traverse.mapM_isOk fun row hrow => ?_
    obtain ⟨c, hc, rfl⟩ := List.mem_map.1 (hsorted.mem_iff.1 hrow)
    exact ⟨_, row_candle_stored (hfits c (List.mem_filter.1 hc).1)⟩
  refine ⟨found, hfound, ?_⟩
  have hread := Traverse.mapM_eq_ok.1 hfound
  have hmap := hsorted.map Row.candle
  rw [hread, List.map_map] at hmap
  have hkept : (cs.filter fun c => c.bucket.isBetween key lo hi).map (Row.candle ∘ Record.stored) =
      ((cs.filter fun c => c.bucket.isBetween key lo hi).map Candle.kept).map .ok := by
    rw [List.map_map]
    exact List.map_congr_left fun c hc => row_candle_stored (hfits c (List.mem_filter.1 hc).1)
  rw [hkept] at hmap
  exact (List.map_perm_map_iff fun a b hab => Except.ok.inj hab).1 hmap

/-- After any batches, the volume of a pair in a span is the pair's entry among the
volumes of the swaps read in that span, and its base and its count are the sums
over the candles read there; a count stops at the largest. -/
theorem volume_paths_agree (hr : ix.registry.DashFree) (h : ix.Feeds fed s)
    (hsame : Transaction.SameTimes fed) (key : String) (lo hi : Timestamp) :
    ∃ v swaps candles, s.volume key lo hi = .ok v ∧ s.swapsBetween key lo hi = .ok swaps ∧
      s.candlesBetween key lo hi = .ok candles ∧
      v = Volume.entry (Volume.byPair swaps) key ∧
      v.base.val = (candles.map fun c => c.volume.val).sum ∧
      v.swaps = (0 : Height).pull (candles.map fun c => c.swapCount.val).sum := by
  obtain ⟨swaps, hkeeps⟩ := h.keeps hr hsame
  obtain ⟨cs, hcs⟩ := Candle.exists_build? fun x hx =>
    (hkeeps.complete x hx).imp' _ fun c hc => hc
  have hfits : ∀ c ∈ cs, Record.Fits c := fun c hc =>
    let ⟨b, hb⟩ := ((Candle.build?_eq_some hcs).2 c).1 hc
    hkeeps.candleFits b c hb
  obtain ⟨found, hfound, hperm⟩ := hkeeps.candlesBetween_eq hcs hfits key lo hi
  have hvolumes := (hperm.map fun c => c.volume.val).sum_eq
  have hcounts := (hperm.map fun c => c.swapCount.val).sum_eq
  rw [List.map_map] at hvolumes hcounts
  replace hvolumes := hvolumes.trans (Candle.sum_volumes hcs hfits key lo hi)
  replace hcounts := hcounts.trans (Candle.sum_counts hcs hfits key lo hi)
  have hbound := Candle.sum_volumes_le hcs hfits key lo hi
  rw [Candle.sum_volumes hcs hfits] at hbound
  refine ⟨_, _, found, Store.volume_eq hkeeps.rows_eq hkeeps.fits key lo hi,
    Store.swapsBetween_eq hkeeps.rows_eq hkeeps.fits key lo hi, hfound, ?_, ?_, ?_⟩
  · exact (Volume.entry_byPair_between swaps key lo hi).symm
  · rw [hvolumes, Volume.ofSwaps_eq, Ranged.pull_val]
    have := Ranged.sum_nonneg
      ((swaps.filter fun x => x.bucket.isBetween key lo hi).map Swap.baseAmount)
    rw [Amount.max] at hbound
    omega
  · rw [hcounts, Volume.ofSwaps_eq]

open Sample TwoSwaps Redelivered in
theorem volume_paths_of_one_swap :
    indexer.registry.DashFree ∧
      indexer.Feeds [firstSwap, firstSwap] afterFirst ∧
      Transaction.SameTimes [firstSwap, firstSwap] ∧
    ∃ v swaps candles, afterFirst.volume "orai-usdt" 0 1000 = .ok v ∧
      afterFirst.swapsBetween "orai-usdt" 0 1000 = .ok swaps ∧
      afterFirst.candlesBetween "orai-usdt" 0 1000 = .ok candles ∧
      v = Volume.entry (Volume.byPair swaps) "orai-usdt" ∧
      v.base.val = (candles.map fun c => c.volume.val).sum ∧
      v.swaps = (0 : Height).pull (candles.map fun c => c.swapCount.val).sum := by
  have hsame : Transaction.SameTimes [firstSwap, firstSwap] := by
    simp [Transaction.SameTimes]
  exact ⟨dashFree, feeds_twice, hsame,
    volume_paths_agree dashFree feeds_twice hsame "orai-usdt" 0 1000⟩

end Indexer

end PoolLedger
