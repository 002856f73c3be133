import PoolLedger.Proofs.Rising

/-! Series of the states of a pool. A series shows for each span of a width the last state in
it. The snapshots behind it are themselves the last states of narrower buckets, so that it is
the history of the pool that is cut: on a chain whose times rise with its heights, what is
last in chain order is last in time. -/

namespace PoolLedger

open Extraction (ofAll)
open PoolChange (inChainOrder ofPool leastHeight?)

def PoolChange.InSpan (c : PoolChange) (t width : Timestamp) : Prop :=
  t ≤ c.timestamp ∧ c.timestamp.val < t.val + width.val

instance (c : PoolChange) (t width : Timestamp) : Decidable (c.InSpan t width) :=
  inferInstanceAs (Decidable (_ ∧ _))

def LiquidityPoint.state (q : LiquidityPoint) : PoolState := ⟨q.base, q.quote, q.totalShare⟩

/-- One point for each multiple of a width that has a change in its span: the state after the
last of them. -/
structure PoolState.Sampled (start : PoolState) (changes : List PoolChange) (width : Timestamp)
    (points : List LiquidityPoint) : Prop where
  ascending : points.Pairwise fun a b => a.timestamp < b.timestamp
  spans : ∀ t, (∃ q ∈ points, q.timestamp = t) ↔
    width.val ∣ t.val ∧ ∃ c ∈ changes, c.InSpan t width
  last : ∀ q ∈ points, ∃ before c later, changes = before ++ c :: later ∧
    c.InSpan q.timestamp width ∧ (∀ d ∈ later, ¬ d.InSpan q.timestamp width) ∧
    q.height = c.position.height ∧ q.state = start.after (before ++ [c])

/-- One point for each multiple of a width that has a change in its span, at the height of the
highest of them. -/
structure PoolChange.Covered (changes : List PoolChange) (width : Timestamp)
    (points : List LiquidityPoint) : Prop where
  spans : ∀ t, (∃ q ∈ points, q.timestamp = t) ↔
    width.val ∣ t.val ∧ ∃ c ∈ changes, c.InSpan t width
  highest : ∀ q ∈ points,
    (∃ c ∈ changes, c.InSpan q.timestamp width ∧ c.position.height = q.height) ∧
      ∀ c ∈ changes, c.InSpan q.timestamp width → c.position.height ≤ q.height

theorem PoolChange.bucketStart?_timestamp {c : PoolChange} {t width : Timestamp}
    (hwidth : 0 < width.val) :
    bucketStart? width c.timestamp = some t ↔ width.val ∣ t.val ∧ c.InSpan t width :=
  bucketStart?_eq_some_iff hwidth

namespace Store

variable {points : List LiquidityPoint} {q : LiquidityPoint} {x : Snapshot} {width : Timestamp}

theorem mem_lastPoints : q ∈ lastPoints points ↔
    ∃ before later, points = before ++ q :: later ∧ ∀ r ∈ later, r.timestamp ≠ q.timestamp :=
  Ascending.mem_lasts

theorem exists_mem_lastPoints (h : q ∈ points) :
    ∃ r ∈ lastPoints points, r.timestamp = q.timestamp :=
  Ascending.exists_mem_lasts h

theorem lastPoints_pairwise (points : List LiquidityPoint) :
    (lastPoints points).Pairwise fun a b => a.timestamp < b.timestamp :=
  (Ascending.lasts_pairwise Ranged.linear).imp of_decide_eq_true

theorem point_eq_ok : point width x = .ok q ↔ bucketStart? width x.timestamp = some q.timestamp ∧
    q.state = .ofSnapshot x ∧ q.height = x.height := by
  obtain ⟨t, base, quote, totalShare, height⟩ := q
  unfold point
  cases bucketStart? width x.timestamp with
  | none => simp [Fault.ofOption, Except.map]
  | some u =>
    simp [Fault.ofOption, Except.map, LiquidityPoint.state, PoolState.ofSnapshot]
    tauto

theorem exists_of_mem_lastPoints {xs : List Snapshot}
    (hascending : xs.Pairwise fun x y => x.timestamp < y.timestamp)
    (h : xs.mapM (point width) = .ok points) (hq : q ∈ lastPoints points) :
    ∃ x ∈ xs, point width x = .ok q ∧ ∀ y ∈ xs, x.timestamp < y.timestamp →
      bucketStart? width y.timestamp ≠ some q.timestamp := by
  obtain ⟨front, tail, rfl, hapart⟩ := mem_lastPoints.1 hq
  rw [Traverse.mapM_eq_ok, List.map_append, List.map_cons] at h
  obtain ⟨before, rest, rfl, -, hrest⟩ := List.map_eq_append_iff.1 h
  obtain ⟨x, later, rfl, hx, hlater⟩ := List.map_eq_cons_iff.1 hrest
  refine ⟨x, by simp, hx, fun y hy hlt hstart => ?_⟩
  rw [List.pairwise_append] at hascending
  rcases List.mem_append.1 hy with hy | hy
  · exact Int.lt_asymm (hascending.2.2 y hy x List.mem_cons_self) hlt
  · rcases List.mem_cons.1 hy with rfl | hy
    · exact Int.lt_irrefl _ hlt
    · have hpoint := List.mem_map_of_mem (f := point width) hy
      rw [hlater] at hpoint
      obtain ⟨r, hr, hry⟩ := List.mem_map.1 hpoint
      rw [(point_eq_ok.1 hry.symm).1] at hstart
      exact hapart r hr (Option.some.inj hstart)

end Store

namespace PoolTable

variable {address : String} {start : PoolState} {changes : List PoolChange} {s : Store}
  {lo hi width : Timestamp}

theorem exists_points (ht : PoolTable address start changes s.snapshots)
    (hrise : PoolChange.Rise changes) (hunique : TableId.snapshots.schema.UniqueKeys s.snapshots)
    (htimes : ∀ c ∈ changes, 0 ≤ c.timestamp.val) (hwidth : 0 < width.val)
    (hrange : ∀ row ∈ s.snapshots, row.textIs 0 address = true → row.within 5 lo hi = true) :
    ∃ points, (Snapshot.lastPerTime (start.history address (inChainOrder changes))).mapM
        (Store.point width) = .ok points ∧
      s.liquiditySeries address lo hi width = .ok (Store.lastPoints points) := by
  obtain ⟨points, hpoints⟩ : ∃ points, (Snapshot.lastPerTime
      (start.history address (inChainOrder changes))).mapM (Store.point width) = .ok points := by
    refine Traverse.mapM_isOk fun x hx => ?_
    obtain ⟨-, -, c, hc, -, hct⟩ := PoolState.mem_history (Snapshot.mem_of_mem_lastPerTime hx)
    obtain ⟨t, hstart⟩ := exists_bucketStart hwidth
      (hct ▸ htimes c (PoolChange.mem_inChainOrder.1 hc))
    exact ⟨⟨t, x.base, x.quote, x.totalShare, x.height⟩, Store.point_eq_ok.2 ⟨hstart, rfl, rfl⟩⟩
  refine ⟨points, hpoints, ?_⟩
  have hrows : (s.snapshots.filter fun r => r.textIs 0 address && r.within 5 lo hi) =
      s.snapshots.filter fun r => r.textIs 0 address := by
    refine List.filter_congr fun row hrow => ?_
    cases htext : row.textIs 0 address with
    | false => rfl
    | true => rw [hrange row hrow htext, Bool.and_self]
  have hread : ((Snapshot.lastPerTime (start.history address (inChainOrder changes))).map
      Record.stored).mapM (fun r => do Store.point width (← Fault.ofExcept (Row.snapshot r))) =
        .ok points := by
    rw [Traverse.mapM_eq_ok, List.map_map, ← Traverse.mapM_eq_ok.1 hpoints]
    refine List.map_congr_left fun x hx => ?_
    rw [Function.comp, row_snapshot_stored (ht.fits x hx)]
    rfl
  have hpositive : ¬ width ≤ 0 := Int.not_le.2 hwidth
  rw [Store.liquiditySeries, if_neg hpositive]
  simp only
  rw [hrows, ht.rows_sorted hrise hunique (.inr rfl), hread]
  rfl

theorem exists_snapshot (address : String) (start : PoolState) {c : PoolChange}
    (hc : c ∈ inChainOrder changes) :
    ∃ x ∈ Snapshot.lastPerTime (start.history address (inChainOrder changes)),
      x.timestamp = c.timestamp := by
  have hmem := List.mem_map_of_mem (f := PoolChange.timestamp) hc
  rw [← PoolState.map_timestamp_history address start] at hmem
  obtain ⟨y, hy, hyc⟩ := List.mem_map.1 hmem
  obtain ⟨x, hx, hxy⟩ := Snapshot.exists_mem_lastPerTime hy
  exact ⟨x, hx, hxy.trans hyc⟩

theorem split_of_mem_points (hrise : PoolChange.Rise changes)
    {points : List LiquidityPoint} (hpoints : (Snapshot.lastPerTime
      (start.history address (inChainOrder changes))).mapM (Store.point width) = .ok points)
    {q : LiquidityPoint} (hq : q ∈ Store.lastPoints points) :
    ∃ before c later, inChainOrder changes = before ++ c :: later ∧
      bucketStart? width c.timestamp = some q.timestamp ∧
      (∀ d ∈ later, bucketStart? width d.timestamp ≠ some q.timestamp) ∧
      q.height = c.position.height ∧ q.state = start.after (before ++ [c]) := by
  obtain ⟨x, hx, hxq, hapart⟩ :=
    Store.exists_of_mem_lastPoints (Snapshot.lastPerTime_pairwise _) hpoints hq
  obtain ⟨hstart, hstate, hheight⟩ := Store.point_eq_ok.1 hxq
  obtain ⟨before, c, later, hsplit, hlater, rfl⟩ := Snapshot.split_of_mem_lastPerTime hx
  refine ⟨before, c, later, hsplit, hstart, fun d hd hspan => ?_, hheight, hstate⟩
  -- a later change in the span would have a snapshot there, so it would have to be earlier in time
  have hordered : (inChainOrder changes).Pairwise _ := PoolChange.inChainOrder_pairwise changes
  have hcm : c ∈ inChainOrder changes := by simp [hsplit]
  have hdm : d ∈ inChainOrder changes := by simp [hsplit, hd]
  obtain ⟨y, hy, hyd⟩ := exists_snapshot address start hdm
  have hnot : ¬ c.timestamp < d.timestamp := fun hlt =>
    hapart y hy (hyd ▸ hlt) (hyd ▸ hspan)
  have hne := hlater d hd
  have hlt : d.timestamp < c.timestamp := by
    rw [Ranged.lt_def] at hnot ⊢
    rw [Ne, Ranged.ext_iff] at hne
    omega
  have hlow := hrise d (PoolChange.mem_inChainOrder.1 hdm) c (PoolChange.mem_inChainOrder.1 hcm) hlt
  rw [hsplit, List.pairwise_append, List.pairwise_cons] at hordered
  exact Int.not_lt.2 (Position.height_le (hordered.2.1.1 d hd)) hlow

theorem exists_series (ht : PoolTable address start changes s.snapshots)
    (hrise : PoolChange.Rise changes) (hunique : TableId.snapshots.schema.UniqueKeys s.snapshots)
    (htimes : ∀ c ∈ changes, 0 ≤ c.timestamp.val) (hwidth : 0 < width.val)
    (hrange : ∀ row ∈ s.snapshots, row.textIs 0 address = true → row.within 5 lo hi = true) :
    ∃ points, s.liquiditySeries address lo hi width = .ok points ∧
      start.Sampled (inChainOrder changes) width points := by
  obtain ⟨points, hpoints, hseries⟩ := ht.exists_points hrise hunique htimes hwidth hrange
  refine ⟨Store.lastPoints points, hseries, ?_⟩
  have hlast : ∀ q ∈ Store.lastPoints points, ∃ before c later, _ := fun q hq =>
    split_of_mem_points hrise hpoints hq
  refine ⟨Store.lastPoints_pairwise points, fun t => ⟨?_, ?_⟩, fun q hq => ?_⟩
  · rintro ⟨q, hq, rfl⟩
    obtain ⟨before, c, later, hsplit, hspan, -, -, -⟩ := hlast q hq
    obtain ⟨hdvd, hspan⟩ := (PoolChange.bucketStart?_timestamp hwidth).1 hspan
    exact ⟨hdvd, c, by simp [hsplit], hspan⟩
  · rintro ⟨hdvd, c, hc, hspan⟩
    obtain ⟨x, hx, hxc⟩ := exists_snapshot address start hc
    obtain ⟨q, hq⟩ := Traverse.exists_ok_of_mapM hpoints hx
    have hqm := (Traverse.mem_of_mapM_ok hpoints).2 ⟨x, hx, hq⟩
    obtain ⟨r, hr, hrq⟩ := Store.exists_mem_lastPoints hqm
    have hstart := (Store.point_eq_ok.1 hq).1
    rw [hxc, (PoolChange.bucketStart?_timestamp hwidth).2 ⟨hdvd, hspan⟩,
      Option.some.injEq] at hstart
    exact ⟨r, hr, hrq.trans hstart.symm⟩
  · obtain ⟨before, c, later, hsplit, hspan, hlater, hheight, hstate⟩ := hlast q hq
    obtain ⟨hdvd, hspan⟩ := (PoolChange.bucketStart?_timestamp hwidth).1 hspan
    refine ⟨before, c, later, hsplit, hspan, fun d hd hin => hlater d hd ?_, hheight, hstate⟩
    exact (PoolChange.bucketStart?_timestamp hwidth).2 ⟨hdvd, hin⟩

end PoolTable

theorem PoolState.Sampled.covered {start : PoolState} {changes : List PoolChange}
    {width : Timestamp} {points : List LiquidityPoint} (h : start.Sampled changes width points)
    (hordered : changes.Pairwise fun a b => a.position.le b.position) :
    PoolChange.Covered changes width points where
  spans := h.spans
  highest q hq := by
    obtain ⟨before, c, later, rfl, hspan, hlast, hheight, -⟩ := h.last q hq
    rw [List.pairwise_append] at hordered
    refine ⟨⟨c, by simp, hspan, hheight.symm⟩, fun d hd hin => ?_⟩
    rw [hheight]
    rcases List.mem_append.1 hd with hd | hd
    · exact Position.height_le (hordered.2.2 d hd c List.mem_cons_self)
    · rcases List.mem_cons.1 hd with rfl | hd
      · exact Int.le_refl _
      · exact absurd hin (hlast d hd)

namespace PoolChange

variable {narrow width : Timestamp} {c d : PoolChange} {xs ys : List PoolChange}

structure Moved (width : Timestamp) (c d : PoolChange) : Prop where
  pairAddress : d.pairAddress = c.pairAddress
  position : d.position = c.position
  timestamp : bucketStart? width c.timestamp = some d.timestamp
  apply : ∀ s : PoolState, s.apply d = s.apply c

theorem Moved.inSpan_iff (hwidth : 0 < width.val) (hdvd : narrow.val ∣ width.val)
    (h : c.Moved narrow d) {t : Timestamp} (ht : width.val ∣ t.val) :
    d.InSpan t width ↔ c.InSpan t width := by
  have hnested := bucketStart?_nested hwidth hdvd h.timestamp t
  rw [bucketStart?_timestamp hwidth, bucketStart?_timestamp hwidth] at hnested
  simpa only [ht, true_and] using hnested

theorem Moved.after_eq (h : List.Forall₂ (Moved narrow) xs ys) (s : PoolState) :
    s.after ys = s.after xs := by
  induction h generalizing s with
  | nil => rfl
  | cons hcd _ ih => exact (ih _).trans (congrArg (PoolState.after · _) (hcd.apply s))

theorem Moved.leastHeight?_eq (h : List.Forall₂ (Moved narrow) xs ys) :
    leastHeight? ys = leastHeight? xs := by
  have hheights : ys.map (fun c => c.position.height) = xs.map fun c => c.position.height := by
    induction h with
    | nil => rfl
    | cons hcd _ ih => rw [List.map_cons, List.map_cons, ih, hcd.position]
  rw [leastHeight?, leastHeight?, hheights]

theorem Moved.inChainOrder (h : List.Forall₂ (Moved narrow) xs ys) :
    List.Forall₂ (Moved narrow) (inChainOrder xs) (inChainOrder ys) :=
  StableSort.forall₂_mergeSort (fun _ _ _ _ hx hy => by rw [hx.position, hy.position]) h

end PoolChange

theorem PoolState.Sampled.of_moved {start : PoolState} {narrow width : Timestamp}
    {xs ys : List PoolChange} {points : List LiquidityPoint} (hwidth : 0 < width.val)
    (hdvd : narrow.val ∣ width.val) (hmoved : List.Forall₂ (PoolChange.Moved narrow) xs ys)
    (h : start.Sampled ys width points) : start.Sampled xs width points where
  ascending := h.ascending
  spans t := by
    rw [h.spans]
    refine and_congr_right fun ht => ⟨?_, ?_⟩
    · rintro ⟨d, hd, hspan⟩
      obtain ⟨c, hc, hcd⟩ := Traverse.exists_of_mem_forall₂ hmoved hd
      exact ⟨c, hc, (hcd.inSpan_iff hwidth hdvd ht).1 hspan⟩
    · rintro ⟨c, hc, hspan⟩
      obtain ⟨d, hd, hcd⟩ := Traverse.exists_of_mem_forall₂ hmoved.flip hc
      exact ⟨d, hd, (hcd.inSpan_iff hwidth hdvd ht).2 hspan⟩
  last q hq := by
    obtain ⟨ht, -⟩ := (h.spans q.timestamp).1 ⟨q, hq, rfl⟩
    obtain ⟨front, d, tail, rfl, hspan, hlast, hheight, hstate⟩ := h.last q hq
    obtain ⟨before, c, later, rfl, hfront, hcd, htail⟩ := Traverse.split_of_forall₂ hmoved
    refine ⟨before, c, later, rfl, (hcd.inSpan_iff hwidth hdvd ht).1 hspan, fun e he hin => ?_,
      by rw [hheight, hcd.position], ?_⟩
    · obtain ⟨e', he', hee⟩ := Traverse.exists_of_mem_forall₂ htail.flip he
      exact hlast e' he' ((hee.inSpan_iff hwidth hdvd ht).2 hin)
    · rw [hstate]
      exact PoolChange.Moved.after_eq (List.rel_append hfront (.cons hcd .nil)) start

namespace Extraction

variable {x : Extraction} {address : String}

def changesOf (x : Extraction) (address : String) : List PoolChange :=
  inChainOrder (ofPool x.swaps x.liquidity address)

def keptChangesOf (x : Extraction) (address : String) : List PoolChange :=
  inChainOrder (ofPool (keepLast x.swaps) (keepLast x.liquidity) address)

/-- No event of another pool has the key of one of the pool. -/
structure ApartAt (x : Extraction) (address : String) : Prop where
  swaps : ∀ a ∈ x.swaps, ∀ b ∈ x.swaps, a.pairAddress = address → b.pairAddress ≠ address →
    a.uniqueKey ≠ b.uniqueKey
  liquidity : ∀ a ∈ x.liquidity, ∀ b ∈ x.liquidity, a.pairAddress = address →
    b.pairAddress ≠ address → a.uniqueKey ≠ b.uniqueKey

/-- No two events of the pool have one key. -/
structure OnceAt (x : Extraction) (address : String) : Prop where
  swaps : (x.swaps.filter fun a => a.pairAddress = address).Pairwise fun a b =>
    a.uniqueKey ≠ b.uniqueKey
  liquidity : (x.liquidity.filter fun a => a.pairAddress = address).Pairwise fun a b =>
    a.uniqueKey ≠ b.uniqueKey

theorem mem_changesOf {c : PoolChange} : c ∈ x.changesOf address ↔
    c ∈ PoolChange.all x.swaps x.liquidity ∧ c.pairAddress = address :=
  PoolChange.mem_inChainOrder.trans PoolChange.mem_ofPool

theorem mem_changesOf_of_kept {c : PoolChange} (h : c ∈ x.keptChangesOf address) :
    c ∈ x.changesOf address := by
  obtain ⟨hc, haddress⟩ := PoolChange.mem_ofPool.1 (PoolChange.mem_inChainOrder.1 h)
  refine mem_changesOf.2 ⟨?_, haddress⟩
  rcases List.mem_append.1 hc with hc | hc
  · obtain ⟨a, ha, rfl⟩ := List.mem_map.1 hc
    exact List.mem_append_left _ (List.mem_map_of_mem (mem_of_mem_keepLast ha))
  · obtain ⟨a, ha, rfl⟩ := List.mem_map.1 hc
    exact List.mem_append_right _ (List.mem_map_of_mem (mem_of_mem_keepLast ha))

theorem keptChangesOf_eq (hapart : x.ApartAt address) (honce : x.OnceAt address) :
    x.keptChangesOf address = x.changesOf address := by
  have hswaps : (keepLast x.swaps).filter (fun a => a.pairAddress = address) =
      x.swaps.filter fun a => a.pairAddress = address := by
    rw [keepLast_filter fun a ha b hb pa pb =>
      hapart.swaps a ha b hb (of_decide_eq_true pa) (by simpa using pb)]
    exact keepLast_eq_self honce.swaps
  have hliquidity : (keepLast x.liquidity).filter (fun a => a.pairAddress = address) =
      x.liquidity.filter fun a => a.pairAddress = address := by
    rw [keepLast_filter fun a ha b hb pa pb =>
      hapart.liquidity a ha b hb (of_decide_eq_true pa) (by simpa using pb)]
    exact keepLast_eq_self honce.liquidity
  have hsplit (swaps : List Swap) (liquidity : List LiquidityChange) :
      ofPool swaps liquidity address =
        (swaps.filter fun a => a.pairAddress = address).map .swap ++
          (liquidity.filter fun a => a.pairAddress = address).map .liquidity := by
    rw [ofPool, PoolChange.all, List.filter_append, List.filter_map, List.filter_map]
    rfl
  rw [keptChangesOf, changesOf, hsplit, hsplit, hswaps, hliquidity]

end Extraction

namespace Indexer

variable {ix : Indexer} {K : Segment → Querier → Prop} {k : Querier} {chain : Chain} {s : Store}
  {o first next : Height} {swaps : List Swap} {liquidity : List LiquidityChange}

theorem KeptBlind.moved (h : ix.KeptBlind k chain o swaps liquidity) (address : String) :
    List.Forall₂ (PoolChange.Moved ix.bucketWidth)
      (ofPool (keepLast (ofAll ix.registry k (chain.between ix.initialHeight o)).swaps)
        (keepLast (ofAll ix.registry k (chain.between ix.initialHeight o)).liquidity) address)
      (ofPool swaps liquidity address) := by
  obtain ⟨told, htold, hsame⟩ := h.liquidity
  have hswaps := Traverse.forall₂_of_mapM_some h.swaps
  have hliquidity : bucketed? ix.bucketWidth ((keepLast (ofAll ix.registry k
      (chain.between ix.initialHeight o)).liquidity).map LiquidityChange.withoutPool) =
        some (liquidity.map LiquidityChange.withoutPool) := by
    rw [LiquidityChange.bucketed_withoutPool, ← hsame]
    exact congrArg (Option.map _) htold
  have hliquidity := Traverse.forall₂_of_mapM_some hliquidity
  rw [List.forall₂_map_left_iff, List.forall₂_map_right_iff] at hliquidity
  refine List.rel_filter (fun c d hcd => by simp [hcd.pairAddress]) (List.rel_append ?_ ?_)
  · rw [List.forall₂_map_left_iff, List.forall₂_map_right_iff]
    refine hswaps.imp fun a b hab => ?_
    obtain ⟨t, ht, rfl⟩ := Option.map_eq_some_iff.1 hab
    exact ⟨rfl, rfl, ht, fun _ => rfl⟩
  · rw [List.forall₂_map_left_iff, List.forall₂_map_right_iff]
    refine hliquidity.imp fun a b hab => ?_
    obtain ⟨t, ht, he⟩ := Option.map_eq_some_iff.1 hab
    have happly (s : PoolState) : s.apply (.liquidity b) = s.apply (.liquidity a) := by
      have hblind : s.apply (.liquidity b) = s.apply (.liquidity b.withoutPool) := rfl
      rw [hblind, ← he]
      rfl
    have htime : b.timestamp = t := (congrArg LiquidityChange.timestamp he).symm
    exact ⟨(congrArg LiquidityChange.pairAddress he).symm,
      (congrArg LiquidityChange.position he).symm, ht.trans (congrArg some htime.symm), happly⟩

theorem same_stamp {α : Type} [Keyed α] [Timed α] [Record α] [ChainEvent α] (hrising : chain.Rising)
    {a b : α} (ha : a ∈ ChainEvent.events (ofAll ix.registry k (chain.between first next)))
    (hb : b ∈ ChainEvent.events (ofAll ix.registry k (chain.between first next)))
    (hkey : Keyed.uniqueKey b = Keyed.uniqueKey a) :
    ChainEvent.height b = ChainEvent.height a ∧ Timed.timestamp b = Timed.timestamp a := by
  obtain ⟨tx, htx, hah, hat, x, hx⟩ := ChainEvent.stamped ix.registry k _ a ha
  obtain ⟨ty, hty, hbh, hbt, y, hy⟩ := ChainEvent.stamped ix.registry k _ b hb
  rw [hx, hy, heightKey_inj] at hkey
  rw [hah, hbh, hat, hbt]
  exact ⟨hkey.1, hrising.sameTimes ty (Chain.mem_between.1 hty).1 tx (Chain.mem_between.1 htx).1
    hkey.1⟩

theorem exists_kept_event {α : Type} [Keyed α] [Timed α] [Record α] [ChainEvent α]
    (hrising : chain.Rising) {pool : α → String} {address : String}
    (hapart : ∀ a ∈ ChainEvent.events (ofAll ix.registry k (chain.between first next)),
      ∀ b ∈ ChainEvent.events (ofAll ix.registry k (chain.between first next)),
        pool a = address → pool b ≠ address → Keyed.uniqueKey a ≠ Keyed.uniqueKey b) {a : α}
    (ha : a ∈ ChainEvent.events (ofAll ix.registry k (chain.between first next)))
    (haddress : pool a = address) :
    ∃ b ∈ keepLast (ChainEvent.events (ofAll ix.registry k (chain.between first next))),
      pool b = address ∧ ChainEvent.height b = ChainEvent.height a ∧
        Timed.timestamp b = Timed.timestamp a := by
  obtain ⟨b, hb, hkey⟩ := exists_mem_keepLast ha
  have hbm := mem_of_mem_keepLast hb
  refine ⟨b, hb, ?_, same_stamp hrising ha hbm hkey⟩
  by_contra hne
  exact hapart a ha b hbm haddress hne hkey.symm

theorem exists_kept (hrising : chain.Rising) {address : String}
    (hapart : (ofAll ix.registry k (chain.between first next)).ApartAt address) {c : PoolChange}
    (hc : c ∈ (ofAll ix.registry k (chain.between first next)).changesOf address) :
    ∃ d ∈ (ofAll ix.registry k (chain.between first next)).keptChangesOf address,
      d.position.height = c.position.height ∧ d.timestamp = c.timestamp := by
  obtain ⟨hc, haddress⟩ := Extraction.mem_changesOf.1 hc
  rcases List.mem_append.1 hc with hc | hc
  · obtain ⟨a, ha, rfl⟩ := List.mem_map.1 hc
    obtain ⟨b, hb, hpool, hstamp⟩ := exists_kept_event hrising hapart.swaps ha haddress
    exact ⟨.swap b, PoolChange.mem_inChainOrder.2 (PoolChange.mem_ofPool.2
      ⟨List.mem_append_left _ (List.mem_map_of_mem hb), hpool⟩), hstamp⟩
  · obtain ⟨a, ha, rfl⟩ := List.mem_map.1 hc
    obtain ⟨b, hb, hpool, hstamp⟩ := exists_kept_event hrising hapart.liquidity ha haddress
    exact ⟨.liquidity b, PoolChange.mem_inChainOrder.2 (PoolChange.mem_ofPool.2
      ⟨List.mem_append_right _ (List.mem_map_of_mem hb), hpool⟩), hstamp⟩

theorem covered_of_kept (hrising : chain.Rising) {address : String}
    (hapart : (ofAll ix.registry k (chain.between first next)).ApartAt address)
    {width : Timestamp} {points : List LiquidityPoint}
    (h : PoolChange.Covered
      ((ofAll ix.registry k (chain.between first next)).keptChangesOf address) width points) :
    PoolChange.Covered ((ofAll ix.registry k (chain.between first next)).changesOf address)
      width points where
  spans t := by
    rw [h.spans]
    refine and_congr_right fun _ => ⟨?_, ?_⟩
    · rintro ⟨c, hc, hspan⟩
      exact ⟨c, Extraction.mem_changesOf_of_kept hc, hspan⟩
    · rintro ⟨c, hc, hspan⟩
      obtain ⟨d, hd, -, htime⟩ := exists_kept hrising hapart hc
      exact ⟨d, hd, by rwa [PoolChange.InSpan, htime]⟩
  highest q hq := by
    obtain ⟨⟨e, he, hspan, htop⟩, hmax⟩ := h.highest q hq
    refine ⟨⟨e, Extraction.mem_changesOf_of_kept he, hspan, htop⟩, fun c hc hin => ?_⟩
    obtain ⟨d, hd, hheight, htime⟩ := exists_kept hrising hapart hc
    rw [← hheight]
    exact hmax d hd (by rwa [PoolChange.InSpan, htime])

theorem Recounts.exists_series (hrising : chain.Rising)
    (htimes : ∀ tx ∈ chain.transactions, 0 ≤ tx.timestamp.val)
    (hs : ix.Holds chain o s swaps liquidity) (h : ix.Recounts K s swaps liquidity)
    (hkept : ix.KeptBlind k chain o swaps liquidity) {address : String} {pair : Pair}
    (hp : ix.registry.byAddress? address = some pair) {lo hi width : Timestamp}
    (hwidth : 0 < width.val) (hdvd : ix.bucketWidth.val ∣ width.val)
    (hrange : ∀ row ∈ s.snapshots, row.textIs 0 address = true → row.within 5 lo hi = true) :
    ∃ points start, s.liquiditySeries address lo hi width = .ok points ∧
      Started K pair address ((ofAll ix.registry k
        (chain.between ix.initialHeight o)).keptChangesOf address) start ∧
      start.Sampled ((ofAll ix.registry k
        (chain.between ix.initialHeight o)).keptChangesOf address) width points := by
  obtain ⟨start, hstart, ht⟩ := h.pools address pair hp
  have hmoved : List.Forall₂ _ _ _ := hkept.moved address
  have hrise : PoolChange.Rise (ofPool swaps liquidity address) :=
    (hs.rise hrising).subset fun _ hc => (PoolChange.mem_ofPool.1 hc).1
  have hnonneg : ∀ c ∈ ofPool swaps liquidity address, 0 ≤ c.timestamp.val := fun c hc => by
    obtain ⟨-, -, tx, htx, -, hbucket⟩ := hs.within (PoolChange.mem_ofPool.1 hc).1
    exact bucketStart?_nonneg hbucket (htimes tx htx)
  obtain ⟨points, hpoints, hsampled⟩ :=
    ht.exists_series hrise h.unique hnonneg hwidth hrange
  refine ⟨points, start, hpoints, fun first hfirst => hstart first ?_,
    hsampled.of_moved hwidth hdvd (PoolChange.Moved.inChainOrder hmoved)⟩
  rw [PoolChange.Moved.leastHeight?_eq hmoved, ← hfirst]
  exact PoolChange.leastHeight?_congr fun c => PoolChange.mem_inChainOrder.symm

/-- On a chain whose times rise with its heights from zero on, the series of a registered pool
over a multiple of the width of the buckets shows each span with a kept change of the pool
once: the state after the last of them in chain order, from what the pool held before its
first one. When no event of another pool has the key of one of the pool, these are the spans
with an event of the pool, and when no two of its own have one key either, all of them count. -/
theorem series_shows_last_states (hrising : chain.Rising)
    (htimes : ∀ tx ∈ chain.transactions, 0 ≤ tx.timestamp.val) {p : Progress}
    (h : ix.Follows K chain p s) {address : String} {pair : Pair}
    (hp : ix.registry.byAddress? address = some pair) {lo hi width : Timestamp}
    (hwidth : 0 < width.val) (hdvd : ix.bucketWidth.val ∣ width.val)
    (hrange : ∀ row ∈ s.snapshots, row.textIs 0 address = true → row.within 5 lo hi = true)
    (k : Querier) :
    ∃ checkpoint x points start, ix.start s = .ok checkpoint ∧
      x = ofAll ix.registry k (chain.between ix.initialHeight checkpoint) ∧
      s.liquiditySeries address lo hi width = .ok points ∧
      Started K pair address (x.keptChangesOf address) start ∧
      start.Sampled (x.keptChangesOf address) width points ∧
      (x.ApartAt address → PoolChange.Covered (x.changesOf address) width points ∧
        (x.OnceAt address → start.Sampled (x.changesOf address) width points)) := by
  obtain ⟨o, swaps, liquidity, hs, hr, hkept⟩ := h.recounts hrising.sameTimes k
  obtain ⟨points, start, hpoints, hstart, hsampled⟩ :=
    hr.exists_series hrising htimes hs hkept hp hwidth hdvd hrange
  refine ⟨o, _, points, start, hs.start, rfl, hpoints, hstart, hsampled,
    fun hapart => ⟨?_, fun honce => ?_⟩⟩
  · exact covered_of_kept hrising hapart (hsampled.covered (PoolChange.inChainOrder_pairwise _))
  · rwa [← Extraction.keptChangesOf_eq hapart honce]

end Indexer

namespace Series

open Sample TwoSwaps

theorem liquiditySeries_swaps : afterSecond.liquiditySeries "pool" 0 1000 180 =
    .ok [⟨0, 12, 16, 5, 130⟩] := by
  have hrows : afterSecond.snapshots = [
      [.text "pool", .integer 11, .integer 18, .integer 5, .integer 110, .integer 60,
        .text "60-pool"],
      [.text "pool", .integer 12, .integer 16, .integer 5, .integer 130, .integer 120,
        .text "120-pool"]] := rfl
  rw [Store.liquiditySeries, if_neg (by decide), hrows]
  simp only
  rw [List.mergeSort_of_pairwise (by decide)]
  decide +kernel

def shadowing : Transaction :=
  reporting "provide_liquidity" [provision "pool" "1orai,2usdt", provision "mallory" "1orai,2usdt"]

def shadowedChain : Chain := ⟨[shadowing], List.pairwise_singleton _ _⟩

def shadowedStore : Store where
  swaps := []
  liquidity := [[.text "A", .text "orai", .integer 1, .text "usdt", .integer 2, .integer 10,
    .integer 20, .real 2, .text "provide", .integer 1, .integer 1, .text "trader",
    .text "mallory", .integer 110, .integer 0, .integer 0, .integer 60,
    .text "110-orai-1-usdt-2"]]
  snapshots := []
  candles := []
  aprs := []
  pairs := []
  checkpoint := some 120

theorem events_shadowing : ofAll indexer.registry querier [shadowing] =
    .concat [.concat [Asking.value querier (Extraction.ofMessage indexer.registry shadowing
      (some ⟨none, [provision "pool" "1orai,2usdt", provision "mallory" "1orai,2usdt"]⟩) 0
      (execution "provide_liquidity"))]] :=
  Extraction.ofAll_written rfl (readExecutions_execution "provide_liquidity" (by simp)) rfl

theorem follows_shadowed :
    indexer.Follows (fun _ k => k = querier) shadowedChain .new shadowedStore := by
  have htaken : Indexer.takeIn? .empty 100 (Asking.value querier (indexer.derive .empty [shadowing]
      120 (ofAll indexer.registry querier [shadowing]))) =
        some (⟨100, 120, 1, 0, 1, 0, 0, 0, 0, 0⟩, shadowedStore) := by
    rw [events_shadowing]
    decide +kernel
  have hopened : indexer.Follows (fun _ k => k = querier) shadowedChain .new .empty := .opened
  exact hopened.take rfl (shadowedChain.upTo_honest 120) rfl (by decide) steady rfl htaken

end Series

namespace Indexer

open Sample TwoSwaps Series

theorem series_shows_second_swap :
    afterSecond.liquiditySeries "pool" 0 1000 180 = .ok [⟨0, 12, 16, 5, 130⟩] ∧
      ∃ checkpoint x points start, indexer.start afterSecond = .ok checkpoint ∧
        x = ofAll indexer.registry querier
          (TwoSwaps.chain.between indexer.initialHeight checkpoint) ∧
        afterSecond.liquiditySeries "pool" 0 1000 180 = .ok points ∧
        Started (fun _ _ => True) pair "pool" (x.keptChangesOf "pool") start ∧
        start.Sampled (x.keptChangesOf "pool") 180 points ∧
        (x.ApartAt "pool" → PoolChange.Covered (x.changesOf "pool") 180 points ∧
          (x.OnceAt "pool" → start.Sampled (x.changesOf "pool") 180 points)) := by
  have hrising : TwoSwaps.chain.Rising := by
    unfold Chain.Rising
    decide
  have hrange : ∀ row ∈ afterSecond.snapshots, row.textIs 0 "pool" = true →
      row.within 5 0 1000 = true := by
    decide +kernel
  have hfollows : indexer.Follows (fun _ _ => True) TwoSwaps.chain _ _ :=
    follows_second trivial (.inr rfl) trivial
  exact ⟨liquiditySeries_swaps, series_shows_last_states hrising (by decide) hfollows
    (by decide) (by decide) (by decide) hrange querier⟩

/-- A foreign contract drops a change of the pool by one with the same key: the span of the
change has no point. -/
theorem shadowed_change_has_no_point :
    shadowedChain.Rising ∧ (∀ tx ∈ shadowedChain.transactions, 0 ≤ tx.timestamp.val) ∧
      indexer.Follows (fun _ k => k = querier) shadowedChain .new shadowedStore ∧
      indexer.registry.byAddress? "pool" = some pair ∧
      indexer.start shadowedStore = .ok 120 ∧
      (∀ row ∈ shadowedStore.snapshots, row.textIs 0 "pool" = true →
        row.within 5 0 1000 = true) ∧
      shadowedStore.liquiditySeries "pool" 0 1000 60 = .ok [] ∧
      ∃ c ∈ (ofAll indexer.registry querier
        (shadowedChain.between indexer.initialHeight 120)).changesOf "pool", c.InSpan 60 60 := by
  have hrising : shadowedChain.Rising := by
    unfold Chain.Rising
    decide
  have hsegment : shadowedChain.between indexer.initialHeight 120 = [shadowing] := rfl
  have hchange : ∃ c ∈ PoolChange.all (ofAll indexer.registry querier [shadowing]).swaps
      (ofAll indexer.registry querier [shadowing]).liquidity,
        c.pairAddress = "pool" ∧ c.InSpan 60 60 := by
    rw [events_shadowing]
    decide +kernel
  refine ⟨hrising, by decide, follows_shadowed, by decide, by decide +kernel, nofun, ?_, ?_⟩
  · rw [Store.liquiditySeries, if_neg (by decide)]
    simp only [shadowedStore, List.filter_nil, List.mergeSort_nil]
    rfl
  · obtain ⟨c, hc, haddress, hspan⟩ := hchange
    rw [hsegment]
    exact ⟨c, Extraction.mem_changesOf.2 ⟨hc, haddress⟩, hspan⟩

end Indexer

end PoolLedger
