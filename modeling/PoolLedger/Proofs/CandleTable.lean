import PoolLedger.Proofs.Ascending
import PoolLedger.Proofs.Ingestion

/-! The table of candles. A batch builds the candles of its buckets anew, from
the stored swaps of these buckets and its own, so each candle is that of all
swaps of its bucket. -/

namespace PoolLedger

namespace PairBucket

theorem lt_iff {a b : PairBucket} :
    lt a b = true ↔
      a.pairKey < b.pairKey ∨ a.pairKey = b.pairKey ∧ a.timestamp.val < b.timestamp.val := by
  simp [lt, Ranged.lt_def]

theorem linear : Ascending.Linear lt where
  irrefl a := by
    rw [lt_iff]
    simp
  trans a b c hab hbc := by
    rw [lt_iff] at *
    rcases hab with hab | ⟨hab, htab⟩ <;> rcases hbc with hbc | ⟨hbc, htbc⟩
    · exact Or.inl (String.lt_trans hab hbc)
    · exact Or.inl (hbc ▸ hab)
    · exact Or.inl (hab ▸ hbc)
    · exact Or.inr ⟨hab.trans hbc, by omega⟩
  total a b hne hab := by
    rw [lt_iff] at *
    by_cases hk : a.pairKey = b.pairKey
    · have ht : a.timestamp.val ≠ b.timestamp.val := by
        intro ht
        exact hne (by cases a; cases b; simp_all [Ranged.ext_iff])
      exact Or.inr ⟨hk.symm, by simp_all; omega⟩
    · exact Or.inl (String.lt_of_ne hk fun h => hab (Or.inl h))

theorem ofList_nodup (xs : List PairBucket) : (Ascending.ofList lt xs).Nodup :=
  linear.nodup (Ascending.ofList_pairwise linear xs)

def isBetween (b : PairBucket) (key : String) (lo hi : Timestamp) : Bool :=
  b.pairKey = key && lo ≤ b.timestamp && b.timestamp ≤ hi

theorem isBetween_iff {b : PairBucket} {key : String} {lo hi : Timestamp} :
    b.isBetween key lo hi = true ↔
      b.pairKey = key ∧ lo.val ≤ b.timestamp.val ∧ b.timestamp.val ≤ hi.val := by
  simp [isBetween, Ranged.le_def, and_assoc]

end PairBucket

namespace Store

variable {s : Store} {swaps : List Swap}

theorem swaps_read (hs : s.swaps = swaps.map Record.stored) (hf : ∀ x ∈ swaps, Record.Fits x) :
    s.swaps.mapM Row.swap = .ok swaps := by
  rw [hs, Traverse.mapM_eq_ok, List.map_map]
  exact List.map_congr_left fun x hx => row_swap_stored (hf x hx)

theorem filter_bucket (hs : s.swaps = swaps.map Record.stored)
    (hf : ∀ x ∈ swaps, Record.Fits x) (b : PairBucket) :
    s.swaps.filter (fun r => r.textIs 10 b.pairKey && r.integerAt 15 = b.timestamp.val) =
      (swaps.filter fun x => x.bucket = b).map Record.stored := by
  rw [hs, List.filter_map]
  congr 1
  apply List.filter_congr
  intro x hx
  obtain ⟨-, -, -, -, -, ht⟩ := integerAt_stored_swap (hf x hx)
  rw [Bool.eq_iff_iff, Function.comp, Bool.and_eq_true, textIs_stored_swap.2.2, ht]
  cases b
  simp [Swap.bucket, Ranged.ext_iff]

theorem inChainOrder_stored {xs : List Swap} (hf : ∀ x ∈ xs, Record.Fits x) :
    inChainOrder (xs.map Record.stored) = (Candle.inChainOrder xs).map Record.stored := by
  symm
  apply List.map_mergeSort
  intro a ha b hb
  exact (Row.upTo_stored_swap (hf a ha) (hf b hb)).symm

theorem swapsInBuckets_eq (hs : s.swaps = swaps.map Record.stored)
    (hf : ∀ x ∈ swaps, Record.Fits x) (buckets : List PairBucket) :
    s.swapsInBuckets buckets =
      .ok (buckets.flatMap fun b => Candle.inChainOrder (swaps.filter fun x => x.bucket = b)) := by
  have hrows : (buckets.flatMap fun b => inChainOrder (s.swaps.filter fun r =>
      r.textIs 10 b.pairKey && r.integerAt 15 = b.timestamp.val)) =
        (buckets.flatMap fun b => Candle.inChainOrder (swaps.filter fun x => x.bucket = b)).map
          Record.stored := by
    rw [List.map_flatMap]
    congr 1
    funext b
    rw [filter_bucket hs hf, inChainOrder_stored fun x hx => hf x (List.mem_filter.1 hx).1]
  rw [swapsInBuckets, hrows, Traverse.mapM_eq_ok, List.map_map]
  apply List.map_congr_left
  intro x hx
  obtain ⟨b, -, hx⟩ := List.mem_flatMap.1 hx
  exact row_swap_stored (hf x (List.mem_filter.1 (List.mem_mergeSort.1 hx)).1)

theorem swapRowsBetween_eq (hs : s.swaps = swaps.map Record.stored)
    (hf : ∀ x ∈ swaps, Record.Fits x) (key : String) (lo hi : Timestamp) :
    s.swapRowsBetween key lo hi =
      (swaps.filter fun x => x.bucket.isBetween key lo hi).map Record.stored := by
  rw [swapRowsBetween, hs, List.filter_map]
  congr 1
  apply List.filter_congr
  intro x hx
  obtain ⟨-, -, -, -, -, ht⟩ := integerAt_stored_swap (hf x hx)
  rw [Bool.eq_iff_iff, Function.comp, Bool.and_eq_true, textIs_stored_swap.2.2,
    PairBucket.isBetween_iff, Row.within, ht]
  simp [Swap.bucket]

theorem swapsBetween_eq (hs : s.swaps = swaps.map Record.stored)
    (hf : ∀ x ∈ swaps, Record.Fits x) (key : String) (lo hi : Timestamp) :
    s.swapsBetween key lo hi =
      .ok (Candle.inChainOrder (swaps.filter fun x => x.bucket.isBetween key lo hi)) := by
  have hbetween : ∀ x ∈ swaps.filter fun x => x.bucket.isBetween key lo hi, Record.Fits x :=
    fun x hx => hf x (List.mem_filter.1 hx).1
  rw [swapsBetween, swapRowsBetween_eq hs hf, inChainOrder_stored hbetween, Traverse.mapM_eq_ok,
    List.map_map]
  exact List.map_congr_left fun x hx => row_swap_stored (hbetween x (List.mem_mergeSort.1 hx))

end Store

namespace Candle

variable {swaps xs ys : List Swap} {b : PairBucket} {c : Candle} {cs : List Candle}

theorem ofBucket?_eq_some {l : List Candle} (h : ofBucket? swaps b = some l) (hc : c ∈ l) :
    l = [c] ∧ c.uniqueKey = timeKey b.timestamp b.pairKey := by
  unfold ofBucket? at h
  split at h
  · cases h
    cases hc
  · obtain ⟨d, hd, rfl⟩ := Option.map_eq_some_iff.1 h
    obtain rfl := List.mem_singleton.1 hc
    refine ⟨rfl, ?_⟩
    simp only [ofOrdered?, Option.bind_eq_bind, Option.bind_eq_some_iff] at hd
    obtain ⟨v, -, hd⟩ := hd
    cases hd
    rfl

theorem exists_of_bucket {l : List Candle} (h : ofBucket? swaps b = some l)
    (hb : ∃ x ∈ swaps, x.bucket = b) : ∃ c, l = [c] := by
  obtain ⟨x, hx, hxb⟩ := hb
  unfold ofBucket? at h
  split at h
  · rename_i hnil
    have hm : x ∈ inChainOrder (swaps.filter fun s => s.bucket = b) :=
      List.mem_mergeSort.2 (List.mem_filter.2 ⟨hx, by simpa using hxb⟩)
    rw [hnil] at hm
    cases hm
  · obtain ⟨d, -, rfl⟩ := Option.map_eq_some_iff.1 h
    exact ⟨d, rfl⟩

theorem counts_of_bucket (h : ofBucket? swaps b = some [c]) :
    (⟨c.pairKey, c.timestamp⟩ : PairBucket) = b ∧
      c.swapCount = (0 : Height).pull (swaps.filter fun x => x.bucket = b).length := by
  have hlength : (inChainOrder (swaps.filter fun x => x.bucket = b)).length =
      (swaps.filter fun x => x.bucket = b).length := List.length_mergeSort _
  unfold ofBucket? at h
  split at h
  · cases h
  · rename_i first rest hsorted
    obtain ⟨d, hd, hc⟩ := Option.map_eq_some_iff.1 h
    obtain rfl := (List.cons.inj hc).1
    simp only [ofOrdered?, Option.bind_eq_bind, Option.bind_eq_some_iff] at hd
    obtain ⟨v, -, hd⟩ := hd
    cases hd
    rw [hsorted, List.length_cons] at hlength
    rw [← hlength]
    exact ⟨rfl, rfl⟩

theorem bucket_of_mem {l : List Candle} (h : ofBucket? swaps b = some l) (hc : c ∈ l) :
    ∃ x ∈ swaps, x.bucket = b := by
  unfold ofBucket? at h
  split at h
  · cases h
    cases hc
  · rename_i first rest hl
    have hm : first ∈ inChainOrder (swaps.filter fun s => s.bucket = b) := by simp [hl]
    obtain ⟨hx, hxb⟩ := List.mem_filter.1 (List.mem_mergeSort.1 hm)
    exact ⟨first, hx, by simpa using hxb⟩

theorem build?_eq_some (h : build? swaps = some cs) :
    (∀ x ∈ swaps, ∃ l, ofBucket? swaps x.bucket = some l) ∧
      ∀ c, c ∈ cs ↔ ∃ b, ofBucket? swaps b = some [c] := by
  obtain ⟨parts, hp, rfl⟩ := Option.map_eq_some_iff.1 h
  have hmem {l : List Candle} := Traverse.mem_of_mapM_some hp (y := l)
  have hall : ∀ x ∈ swaps, ∃ l, ofBucket? swaps x.bucket = some l := by
    intro x hx
    have hb : x.bucket ∈ Ascending.ofList PairBucket.lt (swaps.map Swap.bucket) :=
      Ascending.mem_ofList.2 (List.mem_map_of_mem hx)
    have he := List.mem_map_of_mem (f := ofBucket? swaps) hb
    rw [Traverse.mapM_eq_some.1 hp] at he
    obtain ⟨l, -, hl⟩ := List.mem_map.1 he
    exact ⟨l, hl.symm⟩
  refine ⟨hall, fun c => ?_⟩
  rw [List.mem_flatten]
  constructor
  · rintro ⟨l, hl, hc⟩
    obtain ⟨b, -, hb⟩ := hmem.1 hl
    exact ⟨b, by rw [hb, (ofBucket?_eq_some hb hc).1]⟩
  · rintro ⟨b, hb⟩
    obtain ⟨x, hx, rfl⟩ := bucket_of_mem hb List.mem_cons_self
    refine ⟨[c], hmem.2 ⟨_, Ascending.mem_ofList.2 (List.mem_map_of_mem hx), hb⟩, ?_⟩
    exact List.mem_cons_self

theorem build?_map {β : Type} {f : Candle → β} {g : PairBucket → β}
    (hfg : ∀ b c, ofBucket? swaps b = some [c] → f c = g b) (h : build? swaps = some cs) :
    cs.map f = (Ascending.ofList PairBucket.lt (swaps.map Swap.bucket)).map g := by
  obtain ⟨parts, hp, rfl⟩ := Option.map_eq_some_iff.1 h
  have hswaps : ∀ b ∈ Ascending.ofList PairBucket.lt (swaps.map Swap.bucket),
      ∃ x ∈ swaps, x.bucket = b := fun b hb => List.mem_map.1 (Ascending.mem_ofList.1 hb)
  generalize Ascending.ofList PairBucket.lt (swaps.map Swap.bucket) = buckets at hp hswaps
  rw [Traverse.mapM_eq_some] at hp
  clear h
  induction buckets generalizing parts with
  | nil =>
    cases parts with
    | nil => rfl
    | cons l parts => cases hp
  | cons b buckets ih =>
    cases parts with
    | nil => cases hp
    | cons l parts =>
      obtain ⟨hl, hrest⟩ := List.cons.inj hp
      obtain ⟨c, rfl⟩ := exists_of_bucket hl (hswaps b List.mem_cons_self)
      rw [List.flatten_cons, List.singleton_append, List.map_cons, hfg b c hl, List.map_cons,
        ih parts hrest fun d hd => hswaps d (List.mem_cons_of_mem b hd)]

theorem build?_keys (h : build? swaps = some cs) :
    cs.map uniqueKey = (Ascending.ofList PairBucket.lt (swaps.map Swap.bucket)).map fun b =>
      timeKey b.timestamp b.pairKey :=
  build?_map (fun _ _ hc => (ofBucket?_eq_some hc List.mem_cons_self).2) h

theorem ofBucket?_congr (h : inChainOrder (xs.filter fun s => s.bucket = b) =
    inChainOrder (ys.filter fun s => s.bucket = b)) : ofBucket? xs b = ofBucket? ys b := by
  rw [ofBucket?, ofBucket?, h]

theorem exists_build? (h : ∀ x ∈ swaps, ∃ l, ofBucket? swaps x.bucket = some l) :
    ∃ cs, build? swaps = some cs := by
  have hall : ∀ b ∈ Ascending.ofList PairBucket.lt (swaps.map Swap.bucket),
      ∃ l, ofBucket? swaps b = some l := by
    intro b hb
    obtain ⟨x, hx, rfl⟩ := List.mem_map.1 (Ascending.mem_ofList.1 hb)
    exact h x hx
  obtain ⟨parts, hp⟩ := Traverse.mapM_isSome hall
  exact ⟨parts.flatten, by rw [build?, hp]; rfl⟩

theorem inChainOrder_append (xs ys : List Swap) :
    inChainOrder (inChainOrder xs ++ ys) = inChainOrder (xs ++ ys) :=
  StableSort.mergeSort_mergeSort_append (α := Swap)
    (fun a b c => Position.le_trans a.position b.position c.position)
    (fun a b => Position.le_total a.position b.position) xs ys

def inBucketsOf (swaps others : List Swap) : List Swap :=
  (Ascending.ofList PairBucket.lt (others.map Swap.bucket)).flatMap fun b =>
    inChainOrder (swaps.filter fun x => x.bucket = b)

theorem mem_inBucketsOf {others : List Swap} {x : Swap} :
    x ∈ inBucketsOf swaps others ↔ x ∈ swaps ∧ ∃ y ∈ others, y.bucket = x.bucket := by
  simp only [inBucketsOf, List.mem_flatMap, Ascending.mem_ofList, List.mem_map]
  constructor
  · rintro ⟨b, ⟨y, hy, rfl⟩, hx⟩
    obtain ⟨hx, hb⟩ := List.mem_filter.1 (List.mem_mergeSort.1 hx)
    exact ⟨hx, y, hy, by simpa using Eq.symm (of_decide_eq_true hb)⟩
  · rintro ⟨hx, y, hy, hb⟩
    exact ⟨_, ⟨y, hy, rfl⟩, List.mem_mergeSort.2 (List.mem_filter.2 ⟨hx, by simp [hb]⟩)⟩

def unstored (swaps new : List Swap) : List Swap :=
  new.filter fun n => !(inBucketsOf swaps new).any fun o => o.uniqueKey = n.uniqueKey

theorem filter_inBucketsOf {others : List Swap} (hb : ∃ y ∈ others, y.bucket = b) :
    (inBucketsOf swaps others).filter (fun x => x.bucket = b) =
      inChainOrder (swaps.filter fun x => x.bucket = b) := by
  have hpart (d : PairBucket) :
      (inChainOrder (swaps.filter fun x => x.bucket = d)).filter (fun x => x.bucket = b) =
        if d = b then inChainOrder (swaps.filter fun x => x.bucket = b) else [] := by
    split
    · rename_i hd
      rw [hd, List.filter_eq_self]
      intro x hx
      exact (List.mem_filter.1 (List.mem_mergeSort.1 hx)).2
    · rename_i hd
      rw [List.filter_eq_nil_iff]
      intro x hx hxb
      have hxd := (List.mem_filter.1 (List.mem_mergeSort.1 hx)).2
      simp only [decide_eq_true_eq] at hxd hxb
      exact hd (hxd.symm.trans hxb)
  have hm : b ∈ Ascending.ofList PairBucket.lt (others.map Swap.bucket) := by
    obtain ⟨y, hy, rfl⟩ := hb
    exact Ascending.mem_ofList.2 (List.mem_map_of_mem hy)
  have hn := PairBucket.ofList_nodup (others.map Swap.bucket)
  rw [inBucketsOf, List.filter_flatMap]
  simp only [hpart]
  -- only the bucket itself contributes, and it stands there once
  obtain ⟨before, after, he⟩ := List.append_of_mem hm
  rw [he, List.nodup_append, List.nodup_cons] at hn
  obtain ⟨-, ⟨hafter, -⟩, hbefore⟩ := hn
  have hnone (ds : List PairBucket) (hds : b ∉ ds) :
      (ds.flatMap fun d =>
        if d = b then inChainOrder (swaps.filter fun x => x.bucket = b) else []) = [] := by
    rw [List.flatMap_eq_nil_iff]
    intro d hd
    rw [if_neg]
    rintro rfl
    exact hds hd
  rw [he, List.flatMap_append, List.flatMap_cons, if_pos rfl, hnone after hafter,
    hnone before fun hb => hbefore b hb b List.mem_cons_self rfl, List.append_nil,
    List.nil_append]

end Candle

theorem Candle.ofBucket?_append {swaps added : List Swap} {b : PairBucket}
    (hb : ∀ y ∈ added, y.bucket ≠ b) : ofBucket? (swaps ++ added) b = ofBucket? swaps b := by
  apply ofBucket?_congr
  rw [List.filter_append, List.filter_eq_nil_iff (l := added) |>.2, List.append_nil]
  intro y hy hyb
  exact hb y hy (by simpa using hyb)

namespace Indexer

open Candle (inBucketsOf)

variable {s : Store} {swaps new added : List Swap} {cs : List Candle}

theorem rebuildCandles_eq (hs : s.swaps = swaps.map Record.stored)
    (hf : ∀ x ∈ swaps, Record.Fits x) :
    rebuildCandles s new =
      Fault.ofOption (Candle.build? (inBucketsOf swaps new ++ Candle.unstored swaps new)) := by
  rw [rebuildCandles, Store.swapsInBuckets_eq hs hf]
  rfl

theorem rebuildCandles_ok (hs : s.swaps = swaps.map Record.stored)
    (hf : ∀ x ∈ swaps, Record.Fits x) (hadd : Candle.unstored swaps new = added) :
    rebuildCandles s new = .ok cs ↔ Candle.build? (inBucketsOf swaps new ++ added) = some cs := by
  rw [rebuildCandles_eq hs hf, hadd]
  cases Candle.build? (inBucketsOf swaps new ++ added) <;> simp [Fault.ofOption]

theorem ofBucket?_rebuilt {b : PairBucket} (hb : ∃ y ∈ new, y.bucket = b) :
    Candle.ofBucket? (inBucketsOf swaps new ++ added) b = Candle.ofBucket? (swaps ++ added) b := by
  apply Candle.ofBucket?_congr
  rw [List.filter_append, List.filter_append, Candle.filter_inBucketsOf hb,
    Candle.inChainOrder_append]

theorem mem_rebuilt (hsub : ∀ x ∈ added, x ∈ new)
    (h : Candle.build? (inBucketsOf swaps new ++ added) = some cs) {c : Candle} :
    c ∈ cs ↔ ∃ b, (∃ y ∈ new, y.bucket = b) ∧ Candle.ofBucket? (swaps ++ added) b = some [c] := by
  rw [(Candle.build?_eq_some h).2]
  refine exists_congr fun b => ?_
  constructor
  · intro hc
    have hb : ∃ y ∈ new, y.bucket = b := by
      obtain ⟨x, hx, hxb⟩ := Candle.bucket_of_mem hc List.mem_cons_self
      rcases List.mem_append.1 hx with hx | hx
      · rw [← hxb]
        exact (Candle.mem_inBucketsOf.1 hx).2
      · exact ⟨x, hsub x hx, hxb⟩
    exact ⟨hb, by rw [← ofBucket?_rebuilt hb, hc]⟩
  · rintro ⟨hb, hc⟩
    rw [ofBucket?_rebuilt hb, hc]

end Indexer

/-- A table holds the candles of all buckets of some swaps. -/
def CandleTable (swaps : List Swap) (rows : List Row) : Prop :=
  ∀ row, row ∈ rows ↔ ∃ b c, Candle.ofBucket? swaps b = some [c] ∧ row = Record.stored c

namespace CandleTable

variable {s : Store} {swaps new added : List Swap} {cs : List Candle}

theorem empty : CandleTable [] [] := by
  intro row
  refine iff_of_false List.not_mem_nil ?_
  rintro ⟨b, c, hc, -⟩
  obtain ⟨x, hx, -⟩ := Candle.bucket_of_mem hc List.mem_cons_self
  cases hx

theorem keyOf_eq {b : PairBucket} {c : Candle} (h : Candle.ofBucket? swaps b = some [c]) :
    TableId.candles.schema.keyOf (Record.stored c) =
      some (.text (timeKey b.timestamp b.pairKey)) := by
  rw [keyOf_stored_candle, (Candle.ofBucket?_eq_some h List.mem_cons_self).2]

theorem eq_of_keyOf {swaps' : List Swap} {b d : PairBucket} {x y : Candle}
    (hx : Candle.ofBucket? swaps b = some [x]) (hy : Candle.ofBucket? swaps' d = some [y])
    (h : TableId.candles.schema.keyOf (Record.stored x) =
      TableId.candles.schema.keyOf (Record.stored y)) : b = d := by
  rw [keyOf_eq hx, keyOf_eq hy, Option.some.injEq, Cell.text.injEq, timeKey_inj] at h
  cases b
  cases d
  simp_all

theorem agree (hcs : ∀ c ∈ cs, ∃ b, Candle.ofBucket? swaps b = some [c]) :
    TableId.candles.schema.Agree ((cs.map Record.row).map Row.stored) := by
  rw [Record.map_stored_row]
  intro row₁ h₁ row₂ h₂ hkey
  obtain ⟨x, hx, rfl⟩ := List.mem_map.1 h₁
  obtain ⟨y, hy, rfl⟩ := List.mem_map.1 h₂
  obtain ⟨b, hx⟩ := hcs x hx
  obtain ⟨d, hy⟩ := hcs y hy
  obtain rfl := eq_of_keyOf hx hy hkey
  rw [hx] at hy
  cases hy
  rfl

theorem mem_insertAll_again {s' : Store} {cs' : List Candle}
    (hcs : ∀ c ∈ cs, ∃ b, Candle.ofBucket? swaps b = some [c]) (hsame : ∀ c, c ∈ cs' ↔ c ∈ cs)
    (hs' : s'.candles = s.insertAll cs) {row : Row} :
    row ∈ s'.insertAll cs' ↔ row ∈ s'.candles := by
  have hlast {xs : List Candle} (hxs : ∀ c ∈ xs, ∃ b, Candle.ofBucket? swaps b = some [c])
      (row r : Row) : TableId.candles.schema.lastWith ((xs.map Record.row).map Row.stored) row =
        some r ↔ r ∈ (xs.map Record.row).map Row.stored ∧
          TableId.candles.schema.keyOf r = TableId.candles.schema.keyOf row :=
    TableSchema.lastWith_eq_some_of_agree (agree hxs)
  have hs' : s'.rows (Record.table Candle) = s.insertAll cs := hs'
  refine Store.mem_insertAll_again rfl (fun row => Option.ext fun r => ?_) hs' row
  refine (hlast (fun c hc => hcs c ((hsame c).1 hc)) row r).trans (Iff.trans ?_ (hlast hcs row r).symm)
  simp only [List.mem_map, hsame]

theorem insert (ht : CandleTable swaps s.candles) (hsub : ∀ x ∈ added, x ∈ new)
    (hall : ∀ y ∈ new, ∃ c, Candle.ofBucket? (swaps ++ added) y.bucket = some [c])
    (hcs : ∀ c, c ∈ cs ↔ ∃ b, (∃ y ∈ new, y.bucket = b) ∧
      Candle.ofBucket? (swaps ++ added) b = some [c]) :
    CandleTable (swaps ++ added) (s.insertAll cs) := by
  have hold {b : PairBucket} (hb : ¬ ∃ y ∈ new, y.bucket = b) :
      Candle.ofBucket? (swaps ++ added) b = Candle.ofBucket? swaps b :=
    Candle.ofBucket?_append fun y hy hyb => hb ⟨y, hsub y hy, hyb⟩
  intro row
  rw [Store.insertAll, TableSchema.mem_insertEach_of_agree rfl, Record.map_stored_row,
    List.mem_map]
  · constructor
    · rintro (⟨c, hc, rfl⟩ | ⟨hkeys, hrow⟩)
      · obtain ⟨b, -, hb⟩ := (hcs c).1 hc
        exact ⟨b, c, hb, rfl⟩
      · obtain ⟨b, c, hc, rfl⟩ := (ht row).1 hrow
        refine ⟨b, c, ?_, rfl⟩
        by_cases hb : ∃ y ∈ new, y.bucket = b
        · -- the bucket was rebuilt, so its old candle is gone
          obtain ⟨y, hy, rfl⟩ := hb
          obtain ⟨d, hd⟩ := hall y hy
          refine absurd ?_ (hkeys _ (List.mem_map_of_mem ((hcs d).2 ⟨_, ⟨y, hy, rfl⟩, hd⟩)))
          exact (keyOf_eq hd).trans (keyOf_eq hc).symm
        · rw [hold hb, hc]
    · rintro ⟨b, c, hc, rfl⟩
      by_cases hb : ∃ y ∈ new, y.bucket = b
      · exact Or.inl ⟨c, (hcs c).2 ⟨b, hb, hc⟩, rfl⟩
      · have hc' := hc
        rw [hold hb] at hc
        refine Or.inr ⟨fun row hrow hkey => ?_, (ht _).2 ⟨b, c, hc, rfl⟩⟩
        obtain ⟨d, hd, rfl⟩ := List.mem_map.1 hrow
        obtain ⟨b', hb', hd⟩ := (hcs d).1 hd
        exact hb (eq_of_keyOf hd hc' hkey ▸ hb')
  · have hone : ∀ c ∈ cs, ∃ b, Candle.ofBucket? (swaps ++ added) b = some [c] := by
      intro c hc
      obtain ⟨b, -, hb⟩ := (hcs c).1 hc
      exact ⟨b, hb⟩
    exact agree hone

end CandleTable

end PoolLedger
