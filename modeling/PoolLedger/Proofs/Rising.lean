import PoolLedger.Proofs.Movements

/-! Snapshots rise. On a chain whose times rise with its heights the snapshots of a pool rise
with their times, whoever answered, so that the latest by height is the latest by time. -/

namespace PoolLedger

open PoolChange (inChainOrder ofPool)

/-- Times do not fall while heights rise, so that they are the same at one height. -/
def Chain.Rising (c : Chain) : Prop :=
  ∀ a ∈ c.transactions, ∀ b ∈ c.transactions, a.height ≤ b.height → a.timestamp ≤ b.timestamp

theorem Chain.Rising.sameTimes {c : Chain} (h : c.Rising) : c.SameTimes := fun a ha b hb hab =>
  Ranged.ext (Int.le_antisymm (h a ha b hb (hab ▸ Int.le_refl _))
    (h b hb a ha (hab ▸ Int.le_refl _)))

def PoolChange.Rise (changes : List PoolChange) : Prop :=
  ∀ c ∈ changes, ∀ d ∈ changes, c.timestamp < d.timestamp → c.position.height < d.position.height

theorem PoolChange.Rise.subset {changes changes' : List PoolChange} (h : Rise changes)
    (hsub : changes' ⊆ changes) : Rise changes' :=
  fun c hc d hd => h c (hsub hc) d (hsub hd)

def Store.snapshotsByTime (s : Store) (address : String) : List Row :=
  (s.snapshots.filter fun row => row.textIs 0 address).mergeSort (Row.upTo [5])

namespace PoolTable

variable {address : String} {start : PoolState} {changes : List PoolChange} {s : Store}
  {rows : List Row} {x y : Snapshot}

theorem height_lt (hrise : PoolChange.Rise changes)
    (hx : x ∈ Snapshot.lastPerTime (start.history address (inChainOrder changes)))
    (hy : y ∈ Snapshot.lastPerTime (start.history address (inChainOrder changes)))
    (h : x.timestamp < y.timestamp) : x.height < y.height := by
  obtain ⟨-, -, c, hc, hch, hct⟩ := PoolState.mem_history (Snapshot.mem_of_mem_lastPerTime hx)
  obtain ⟨-, -, d, hd, hdh, hdt⟩ := PoolState.mem_history (Snapshot.mem_of_mem_lastPerTime hy)
  rw [hch, hdh]
  exact hrise c (PoolChange.mem_inChainOrder.1 hc) d (PoolChange.mem_inChainOrder.1 hd)
    (hct ▸ hdt ▸ h)

theorem rows_pairwise (ht : PoolTable address start changes rows)
    (hrise : PoolChange.Rise changes) :
    ((Snapshot.lastPerTime (start.history address (inChainOrder changes))).map
      Record.stored).Pairwise fun a b : Row =>
        a.integerAt 5 < b.integerAt 5 ∧ a.integerAt 4 < b.integerAt 4 := by
  rw [List.pairwise_map]
  refine (Snapshot.lastPerTime_pairwise _).imp_of_mem fun {x y} hx hy hxy => ?_
  obtain ⟨hx₄, hx₅⟩ := integerAt_stored_snapshot (ht.fits x hx)
  obtain ⟨hy₄, hy₅⟩ := integerAt_stored_snapshot (ht.fits y hy)
  rw [hx₄, hx₅, hy₄, hy₅]
  exact ⟨hxy, height_lt hrise hx hy hxy⟩

theorem rows_sorted (ht : PoolTable address start changes rows) (hrise : PoolChange.Rise changes)
    (hunique : TableId.snapshots.schema.UniqueKeys rows) {places : List Nat}
    (hplaces : places = [5] ∨ places = [4, 5]) :
    (rows.filter fun row => row.textIs 0 address).mergeSort (Row.upTo places) =
      (Snapshot.lastPerTime (start.history address (inChainOrder changes))).map
        Record.stored := by
  have hascending := ht.rows_pairwise hrise
  have hperm : ((rows.filter fun row => row.textIs 0 address).mergeSort (Row.upTo places)).Perm
      ((Snapshot.lastPerTime (start.history address (inChainOrder changes))).map
        Record.stored) := by
    refine (List.mergeSort_perm _ _).trans ((List.perm_ext_iff_of_nodup ?_ ?_).2 fun row => ?_)
    · exact (hunique.imp fun {a b} hab he => hab (by rw [he])).filter _
    · exact hascending.imp fun {a b} hab he => by
        rw [he] at hab
        omega
    · rw [List.mem_filter, ht.mem_iff, List.mem_map]
      simp only [eq_comm]
  have hsorted := List.pairwise_mergeSort (Row.upTo_trans places) (Row.upTo_total places)
    (rows.filter fun row => row.textIs 0 address)
  refine List.Perm.eq_of_pairwise ?_ hsorted ?_ hperm
  · intro a b ha hb hab hba
    obtain ⟨x, hx, rfl⟩ := List.mem_map.1 (hperm.mem_iff.1 ha)
    obtain ⟨y, hy, rfl⟩ := List.mem_map.1 hb
    obtain ⟨hx₄, hx₅⟩ := integerAt_stored_snapshot (ht.fits x hx)
    obtain ⟨hy₄, hy₅⟩ := integerAt_stored_snapshot (ht.fits y hy)
    have htime : x.timestamp.val = y.timestamp.val := by
      rcases hplaces with rfl | rfl <;>
      · simp only [Row.upTo, hx₄, hx₅, hy₄, hy₅, Bool.or_eq_true, Bool.and_eq_true,
          decide_eq_true_eq] at hab hba
        omega
    rw [Snapshot.eq_of_mem_lastPerTime hx hy (Ranged.ext htime)]
  · refine hascending.imp fun {a b} hab => ?_
    rcases hplaces with rfl | rfl <;> simp [Row.upTo, hab.1, hab.2]

theorem getLast?_lastPerTime (hsame : PoolChange.SameTimes changes)
    (hrise : PoolChange.Rise changes) :
    (Snapshot.lastPerTime (start.history address (inChainOrder changes))).getLast? =
      (start.history address (inChainOrder changes)).getLast? := by
  cases hz : (start.history address (inChainOrder changes)).getLast? with
  | none =>
    rw [List.getLast?_eq_none_iff] at hz
    rw [hz]
    rfl
  | some z =>
    have hzm := Snapshot.getLast_mem_lastPerTime hz
    cases hy : (Snapshot.lastPerTime (start.history address (inChainOrder changes))).getLast? with
    | none =>
      rw [List.getLast?_eq_none_iff.1 hy] at hzm
      cases hzm
    | some y =>
      -- any other last one would stand lower and be later, against the rise
      by_contra hne
      have hym := List.mem_of_getLast? hy
      have hlow := PoolState.height_lt_last hsame hz hym fun he => hne (congrArg some he)
      obtain ⟨front, hfront⟩ := List.getLast?_eq_some_iff.1 hy
      have hpairwise :=
        Snapshot.lastPerTime_pairwise (start.history address (inChainOrder changes))
      rw [hfront, List.pairwise_append] at hpairwise
      rw [hfront, List.mem_append, List.mem_singleton,
        or_iff_left fun he => hne (congrArg some he.symm)] at hzm
      have htime := hpairwise.2.2 z hzm y (List.mem_singleton_self y)
      have hzm := Snapshot.getLast_mem_lastPerTime hz
      exact Int.lt_asymm hlow (height_lt hrise hzm hym htime)

end PoolTable

namespace Indexer

variable {ix : Indexer} {K : Segment → Querier → Prop} {chain : Chain} {p : Progress} {s : Store}
  {o : Height} {swaps : List Swap} {liquidity : List LiquidityChange}

theorem Holds.rise (h : ix.Holds chain o s swaps liquidity) (hrising : chain.Rising) :
    PoolChange.Rise (PoolChange.all swaps liquidity) := by
  intro c hc d hd htime
  obtain ⟨-, -, tx, htx, hheight, hstart⟩ := h.within hc
  obtain ⟨-, -, ty, hty, hheight', hstart'⟩ := h.within hd
  by_contra hlt
  have hle : d.position.height ≤ c.position.height := Int.not_lt.1 hlt
  rw [← hheight, ← hheight'] at hle
  exact absurd htime
    (Int.not_lt.2 (bucketStart?_mono hstart' hstart (hrising ty hty tx htx hle)))

/-- On a chain whose times rise with its heights, the snapshots of a registered pool have
one row for each time, and later ones are higher. So the snapshot found by height is the
last by time, and has the height of the last stored event of the pool. -/
theorem snapshot_heights_rise (hrising : chain.Rising) (h : ix.Follows K chain p s)
    {address : String} {pair : Pair} (hp : ix.registry.byAddress? address = some pair) :
    ((s.snapshotsByTime address).Pairwise fun a b =>
      a.integerAt 5 < b.integerAt 5 ∧ a.integerAt 4 < b.integerAt 4) ∧
    ∃ found, s.latestReserve address = .ok found ∧
      (s.snapshotsByTime address).getLast? = found.map Record.stored ∧
      found.map (fun x => x.height.val) =
        (Movement.inChainOrder (s.movements address)).getLast?.map Movement.height := by
  obtain ⟨o, swaps, liquidity, hs, hr, -⟩ := h.recounts hrising.sameTimes .silent
  obtain ⟨start, -, ht⟩ := hr.pools address pair hp
  have hsub : ofPool swaps liquidity address ⊆ PoolChange.all swaps liquidity :=
    fun _ hc => (PoolChange.mem_ofPool.1 hc).1
  have hsame := (hs.sameTimes hrising.sameTimes).subset hsub
  have hrise := (hs.rise hrising).subset hsub
  have hrows : s.snapshotsByTime address = _ := ht.rows_sorted hrise hr.unique (.inl rfl)
  refine ⟨hrows ▸ ht.rows_pairwise hrise, _, ht.latestReserveBefore_eq hsame
    fun c hc => hs.height_lt (hsub hc), ?_, ?_⟩
  · rw [hrows, List.getLast?_map, PoolTable.getLast?_lastPerTime hsame hrise]
  · rw [movements_eq hs.swapTable.rows_eq hs.liquidityTable.rows_eq hs.swapTable.fits
      hs.liquidityTable.fits, Movement.inChainOrder_map, List.getLast?_map, Option.map_map]
    by_cases hne : inChainOrder (ofPool swaps liquidity address) = []
    · rw [hne]
      rfl
    · obtain ⟨c, hc, x, hx, hheight, -, -⟩ := PoolState.getLast?_history address start _ hne
      rw [hx, hc]
      exact congrArg (fun h => some h.val) hheight

open Sample TwoSwaps in
theorem heights_rise_in_two_buckets :
    (afterSecond.snapshotsByTime "pool").length = 2 ∧
      ((afterSecond.snapshotsByTime "pool").Pairwise fun a b =>
        a.integerAt 5 < b.integerAt 5 ∧ a.integerAt 4 < b.integerAt 4) ∧
      ∃ found, afterSecond.latestReserve "pool" = .ok found ∧
        (afterSecond.snapshotsByTime "pool").getLast? = found.map Record.stored ∧
        found.map (fun x => x.height.val) = (Movement.inChainOrder
          (afterSecond.movements "pool")).getLast?.map Movement.height := by
  have hrising : chain.Rising := by
    unfold Chain.Rising
    decide
  have hlength : (afterSecond.snapshotsByTime "pool").length = 2 := by
    rw [Store.snapshotsByTime, List.length_mergeSort]
    decide +kernel
  have hfollows : indexer.Follows (fun _ _ => True) chain _ _ :=
    follows_second trivial (.inr rfl) trivial
  have hpair : indexer.registry.byAddress? "pool" = some pair := by decide
  exact ⟨hlength, snapshot_heights_rise hrising hfollows hpair⟩

end Indexer

end PoolLedger
