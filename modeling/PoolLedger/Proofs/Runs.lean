import PoolLedger.Proofs.Answers
import PoolLedger.Proofs.Chain
import PoolLedger.Proofs.Endings

/-! Following a chain through failures and restarts. What an applied pass gives is said once, and
whatever the empty store has and an applied pass keeps, every store of a run has. -/

namespace PoolLedger

open Asking

namespace ChainEvent

variable {α : Type} [Keyed α] [Timed α] [Record α] [ChainEvent α] {ix : Indexer} {chain : Chain}
  {first o next : Height} {xs ys : List α}

theorem insertEach_later (hx : ∀ x ∈ xs, Within ix chain first o x)
    (hy : ∀ y ∈ ys, Within ix chain o next y)
    (hkeys : ys.Pairwise fun a b => Keyed.uniqueKey a ≠ Keyed.uniqueKey b) :
    (Record.table α).schema.insertEach (xs.map Record.stored) (ys.map Record.row) =
      (xs ++ ys).map Record.stored := by
  have hkey (a b : α) (hab : Keyed.uniqueKey a ≠ Keyed.uniqueKey b) :
      (Record.table α).schema.keyOf (Record.stored a) ≠
        (Record.table α).schema.keyOf (Record.stored b) := by
    rw [keyOf_stored, keyOf_stored]
    simpa using hab
  rw [TableSchema.insertEach_fresh (conflict (α := α)), Record.map_stored_row, List.map_append]
  · rw [Record.map_stored_row, List.pairwise_map]
    exact hkeys.imp (hkey _ _)
  · intro r hr row hrow
    obtain ⟨a, ha, rfl⟩ := List.mem_map.1 hr
    obtain ⟨b, hb, rfl⟩ := List.mem_map.1 hrow
    exact hkey a b (uniqueKey_ne_of_within (hx a ha) (hy b hb))

end ChainEvent

theorem PoolChange.within_of_events {ix : Indexer} {chain : Chain} {first next : Height}
    {swaps : List Swap} {liquidity : List LiquidityChange}
    (hs : ∀ x ∈ swaps, ChainEvent.Within ix chain first next x)
    (hl : ∀ x ∈ liquidity, ChainEvent.Within ix chain first next x) {c : PoolChange}
    (hc : c ∈ all swaps liquidity) :
    first ≤ c.position.height ∧ c.position.height < next ∧ ∃ tx ∈ chain.transactions,
      tx.height = c.position.height ∧
        bucketStart? ix.bucketWidth tx.timestamp = some c.timestamp := by
  rcases List.mem_append.1 hc with hc | hc
  · obtain ⟨x, hx, rfl⟩ := List.mem_map.1 hc
    exact ⟨(hs x hx).first_le, (hs x hx).lt_next, (hs x hx).source⟩
  · obtain ⟨x, hx, rfl⟩ := List.mem_map.1 hc
    exact ⟨(hl x hx).first_le, (hl x hx).lt_next, (hl x hx).source⟩

theorem Batch.Fits.height {b : Batch} (h : b.Fits) {c : PoolChange}
    (hc : c ∈ PoolChange.all b.swaps b.liquidity) : IsWord c.position.height.val := by
  rcases List.mem_append.1 hc with hc | hc
  · obtain ⟨x, hx, rfl⟩ := List.mem_map.1 hc
    obtain ⟨-, -, -, -, -, hw⟩ := fits_swap.1 (h.swaps x hx)
    exact hw
  · obtain ⟨x, hx, rfl⟩ := List.mem_map.1 hc
    obtain ⟨-, -, -, -, -, -, -, hw⟩ := fits_liquidity.1 (h.liquidity x hx)
    exact hw

theorem Apr.refresh_heights (r : Registry)
    (latest : String → Except IndexerError (Option AprRecord)) (t : AprTriggers) (height : Height)
    (timestamp : Timestamp) : Always (Apr.refresh r latest t height timestamp) fun v =>
      ∀ ys, v = .ok ys → ∀ y ∈ ys, y.height = height := by
  unfold Apr.refresh
  extract_lets pairs
  split
  · exact always_pure fun ys hys y hy => by cases hys; cases hy
  · split
    · exact always_pure nofun
    · refine Always.bind (P := fun _ => True) (fun _ _ => trivial) fun inputs _ => ?_
      refine Always.bind (P := fun _ => True) (fun _ _ => trivial) fun market _ => ?_
      refine always_pure fun ys hys y hy => ?_
      cases hys
      obtain ⟨i, -, rfl⟩ := List.mem_map.1 hy
      rfl

namespace Indexer

variable {ix : Indexer} {K : Segment → Querier → Prop} {k : Querier} {asked : List Query}
  {chain : Chain} {p : Progress} {s : Store} {o next : Height} {txs : List Transaction}
  {x : Extraction} {b : Batch} {swaps : List Swap} {liquidity : List LiquidityChange}

def Seeded (ix : Indexer) (k : Querier) (s : Store) (b : Batch) : Prop :=
  ∃ asked seeds, (Snapshot.resolveSeeds ix.registry s.latestReserveBefore
      (Snapshot.minHeights ix.registry b.swaps b.liquidity) k asked).1 = .ok seeds ∧
    b.snapshots = Snapshot.accumulate ix.registry seeds b.swaps b.liquidity

theorem derive_seeded : Under k (ix.derive s txs next x) fun v => ∀ b m, v = .ok (b, m) →
    ix.Seeded k s b ∧ ∀ y ∈ b.aprs, y.height = (moment txs next).1 := by
  unfold derive
  split
  · rename_i swaps liquidity _ _
    refine Under.bind (P := fun v => ∃ asked, (Snapshot.resolveSeeds ix.registry
      s.latestReserveBefore (Snapshot.minHeights ix.registry swaps liquidity) k asked).1 = v)
      (fun before => ⟨before, rfl⟩) fun v hv => ?_
    split
    · exact under_pure nofun
    · rename_i seeds
      obtain ⟨asked, hseeds⟩ := hv
      split
      · exact under_pure nofun
      · refine Under.bind (P := fun v => ∀ ys, v = .ok ys → ∀ y ∈ ys, y.height =
          (moment txs next).1) (fun before => Apr.refresh_heights _ _ _ _ _ k before)
          fun v hv => ?_
        split
        · exact under_pure nofun
        · rename_i aprs
          refine under_pure fun b m hb => ?_
          cases hb
          exact ⟨⟨asked, seeds, hseeds, rfl⟩, hv aprs rfl⟩
  · exact under_pure nofun

theorem exists_settled {m : Summary} (h : (ix.process s txs next k asked).1 = .ok (b, m)) :
    ∃ x, Extraction.Of ix.registry txs x ∧ ix.Settles s next x b := by
  have hends : Always (ix.process s txs next) _ := process_ends
  obtain ⟨x, hx, hderivation⟩ := hends k asked
  rw [h] at hderivation
  cases hderivation with
  | derived _ _ settled => exact ⟨x, hx, settled⟩

theorem value_process (hk : k.Steady) :
    value k (ix.process s txs next) =
      value k (ix.derive s txs next (Extraction.ofAll ix.registry k txs)) := by
  have hv := (Settled.mapM txs fun tx _ =>
    Extraction.ofTransaction_settled hk ix.registry tx).2
  rw [process, value_bind, hv]
  · rfl
  · rw [hv]
    exact (derive_spec hk).1

theorem process_derives {m : Summary} (hk : k.Steady)
    (h : (ix.process s txs next k asked).1 = .ok (b, m)) : ix.Derives k s txs next b := by
  obtain ⟨hsettled, hspec⟩ : Settled k (ix.process s txs next) ∧ _ := process_spec hk
  exact (hspec b).1 ⟨m, (hsettled asked).symm.trans h⟩

theorem eq_ok_of_toOption {ε α : Type} {v : Except ε α} {a : α} (h : v.toOption = some a) :
    v = .ok a := by
  cases v with
  | error e => cases h
  | ok b => exact congrArg Except.ok (Option.some.inj h)

def takeIn? (s : Store) (o : Height) (v : Except Fault (Batch × Summary)) :
    Option (Summary × Store) := do
  let (b, m) ← v.toOption
  let t ← (s.persist b).toOption
  return ({ m with first := o }, t)

theorem applied_of_takeIn? {source : SegmentSource} {m : Summary} {t : Store} (asked : List Query)
    (hk : k.Steady) (hsegment : source o = .ok ⟨txs, next⟩) (hmoved : next ≠ o)
    (h : takeIn? s o (value k (ix.derive s txs next (Extraction.ofAll ix.registry k txs))) =
      some (m, t)) :
    (ix.passFrom source o s k asked).1.result = .ok (.applied m) ∧
      (ix.passFrom source o s k asked).1.store = t := by
  rw [← value_process hk, takeIn?] at h
  simp only [Option.bind_eq_bind, Option.bind_eq_some_iff, Option.pure_def, Option.some.injEq,
    Prod.mk.injEq] at h
  obtain ⟨⟨b, m'⟩, hv, t', ht, rfl, rfl⟩ := h
  have hprocess : (ix.process s txs next k asked).1 = .ok (b, m') :=
    ((process_spec hk).1 asked).trans (eq_ok_of_toOption hv)
  unfold passFrom
  rw [hsegment]
  simp only
  rw [if_neg hmoved, bind_fst, hprocess]
  simp only [eq_ok_of_toOption ht]
  exact ⟨rfl, rfl⟩

/-- A segment comes to a batch that fits the store, under a querier. -/
structure Applies (ix : Indexer) (k : Querier) (s : Store) (txs : List Transaction)
    (next : Height) (x : Extraction) (b : Batch) : Prop where
  extracted : Extraction.Of ix.registry txs x
  blind : x.withoutPool = Extraction.ofAll ix.registry .silent txs
  settled : ix.Settles s next x b
  seeded : ix.Seeded k s b
  yields : ∀ y ∈ b.aprs, y.height = (moment txs next).1
  derives : k.Steady → ix.Derives k s txs next b
  fits : b.Fits

theorem process_applies {m : Summary} (h : (ix.process s txs next k asked).1 = .ok (b, m))
    (fits : b.Fits) : ∃ x, ix.Applies k s txs next x b := by
  let parts := (txs.mapM (Extraction.ofTransaction ix.registry) k asked).1
  let before := (txs.mapM (Extraction.ofTransaction ix.registry) k asked).2
  have hv : (ix.derive s txs next (.concat parts) k before).1 = .ok (b, m) := h
  have hends : ix.Derivation s next (.concat parts)
      (ix.derive s txs next (.concat parts) k before).1 := derive_ends k before
  obtain ⟨hseeded, hyields⟩ := derive_seeded before b m hv
  rw [hv] at hends
  cases hends with
  | derived _ _ settled =>
    refine ⟨.concat parts, Extraction.always_of ix.registry txs k asked,
      Extraction.always_withoutPool ix.registry txs k asked, settled, hseeded, hyields,
      fun hk => process_derives hk h, fits⟩

namespace Applies

variable (h : ix.Applies k s (chain.between o next) next x b)
include h

theorem swaps_within : ∀ y ∈ b.swaps, ChainEvent.Within ix chain o next y :=
  fun _ => ChainEvent.within_of_bucketed (fun z hz => by
    obtain ⟨tx, htx, hfrom⟩ := h.extracted.events _ (Extraction.mem_swaps.1 hz)
    exact ⟨tx, htx, hfrom.stamped⟩) h.settled.swaps

theorem liquidity_within : ∀ y ∈ b.liquidity, ChainEvent.Within ix chain o next y :=
  fun _ => ChainEvent.within_of_bucketed (fun z hz => by
    obtain ⟨tx, htx, hfrom⟩ := h.extracted.events _ (Extraction.mem_liquidity.1 hz)
    exact ⟨tx, htx, hfrom.stamped⟩) h.settled.liquidity

theorem within {c : PoolChange} (hc : c ∈ PoolChange.all b.swaps b.liquidity) :
    o ≤ c.position.height ∧ c.position.height < next ∧ ∃ tx ∈ chain.transactions,
      tx.height = c.position.height ∧
        bucketStart? ix.bucketWidth tx.timestamp = some c.timestamp :=
  PoolChange.within_of_events h.swaps_within h.liquidity_within hc

end Applies

theorem lt_of_start (hs : ix.start s = .ok o) {height : Height} (h₁ : ix.initialHeight ≤ height)
    (h₂ : height < o) : height.val < 9223372036854775807 := by
  simp only [Ranged.le_def, Ranged.lt_def] at h₁ h₂
  simp only [Indexer.start, Store.loadCheckpoint] at hs
  cases hw : s.checkpoint with
  | none =>
    rw [hw] at hs
    obtain rfl := Except.ok.inj hs
    exact absurd (Int.lt_of_le_of_lt h₁ h₂) (Int.lt_irrefl _)
  | some w =>
    -- a stored checkpoint is a word, and the height lies below it
    have hle := w.le_hi
    rw [hw, Option.mapM_some, Row.height] at hs
    split at hs
    · rename_i g hg
      obtain rfl : g = o := Except.ok.inj hs
      rw [Ranged.ofInt?_eq_some_iff] at hg
      omega
    · cases hs

theorem start_of_checkpoint {h : Height} (hw : IsWord h.val)
    (hs : s.checkpoint = Ranged.ofInt? h.val) : ix.start s = .ok h := by
  have hword : (Ranged.ofInt? h.val : Option Word) = some ⟨h.val, hw.1, hw.2⟩ :=
    Ranged.ofInt?_eq_some_iff.2 rfl
  simp only [start, Store.loadCheckpoint, hs, hword, Option.mapM_some, Row.height,
    Ranged.ofInt?_val]
  rfl

theorem offset_of_start (hs : ix.start s = .ok o)
    (hp : p.checkpoint = none ∨ p.checkpoint = some o) : ix.offset p s = .ok o := by
  rcases hp with hp | hp
  · rw [offset, hp]
    exact hs
  · rw [offset, hp]

/-- The rows of a table are the given events, from below a height of the chain. -/
structure Logs {α : Type} [Keyed α] [Timed α] [Record α] [ChainEvent α] (ix : Indexer)
    (chain : Chain) (o : Height) (rows : List Row) (xs : List α) : Prop where
  rows_eq : rows = xs.map Record.stored
  fits : ∀ x ∈ xs, Record.Fits x
  within : ∀ x ∈ xs, ChainEvent.Within ix chain ix.initialHeight o x

theorem Logs.insert {α : Type} [Keyed α] [Timed α] [Record α] [ChainEvent α] {rows : List Row}
    {xs ys : List α} (h : ix.Logs chain o rows xs) (h₁ : ix.initialHeight ≤ o) (h₂ : o ≤ next)
    (hy : ∀ y ∈ ys, ChainEvent.Within ix chain o next y)
    (hkeys : ys.Pairwise fun a b => Keyed.uniqueKey a ≠ Keyed.uniqueKey b)
    (hf : ∀ y ∈ ys, Record.Fits y) :
    ix.Logs chain next ((Record.table α).schema.insertEach rows (ys.map Record.row))
      (xs ++ ys) where
  rows_eq := by
    rw [h.rows_eq]
    exact ChainEvent.insertEach_later h.within hy hkeys
  fits x hx := (List.mem_append.1 hx).elim (h.fits x) (hf x)
  within x hx := (List.mem_append.1 hx).elim
    (fun hx => (h.within x hx).mono (Int.le_refl _) h₂)
    fun hx => (hy x hx).mono h₁ (Int.le_refl _)

structure Holds (ix : Indexer) (chain : Chain) (o : Height) (s : Store) (swaps : List Swap)
    (liquidity : List LiquidityChange) : Prop where
  start : ix.start s = .ok o
  initial_le : ix.initialHeight ≤ o
  swapTable : ix.Logs chain o s.swaps swaps
  liquidityTable : ix.Logs chain o s.liquidity liquidity

theorem holds_empty (ix : Indexer) (chain : Chain) :
    ix.Holds chain ix.initialHeight .empty [] [] where
  start := rfl
  initial_le := Int.le_refl _
  swapTable := ⟨rfl, by simp, by simp⟩
  liquidityTable := ⟨rfl, by simp, by simp⟩

namespace Holds

theorem within (h : ix.Holds chain o s swaps liquidity) {c : PoolChange}
    (hc : c ∈ PoolChange.all swaps liquidity) :
    ix.initialHeight ≤ c.position.height ∧ c.position.height < o ∧ ∃ tx ∈ chain.transactions,
      tx.height = c.position.height ∧
        bucketStart? ix.bucketWidth tx.timestamp = some c.timestamp :=
  PoolChange.within_of_events h.swapTable.within h.liquidityTable.within hc

theorem height_lt (h : ix.Holds chain o s swaps liquidity) {c : PoolChange}
    (hc : c ∈ PoolChange.all swaps liquidity) : c.position.height.val < 9223372036854775807 :=
  lt_of_start h.start (h.within hc).1 (h.within hc).2.1

theorem after (h : ix.Holds chain o s swaps liquidity) (hle : o ≤ next)
    (hb : ix.Applies k s (chain.between o next) next x b) :
    ix.Holds chain next (s.after b) (swaps ++ b.swaps) (liquidity ++ b.liquidity) where
  start := by
    have hcheckpoint := hb.fits.checkpoint
    rw [hb.settled.checkpoint] at hcheckpoint
    refine start_of_checkpoint hcheckpoint ?_
    rw [← hb.settled.checkpoint]
    rfl
  initial_le := Int.le_trans h.initial_le hle
  swapTable := h.swapTable.insert h.initial_le hle hb.swaps_within
    (ChainEvent.bucketed_pairwise hb.settled.swaps) hb.fits.swaps
  liquidityTable := h.liquidityTable.insert h.initial_le hle hb.liquidity_within
    (ChainEvent.bucketed_pairwise hb.settled.liquidity) hb.fits.liquidity

end Holds

/-- An indexer over a store that was opened empty, after any number of passes over a chain,
writes that the database refused, and restarts. Whoever answered while a segment was applied
is of the segment's kind. -/
inductive Follows (ix : Indexer) (K : Segment → Querier → Prop) (chain : Chain) :
    Progress → Store → Prop
  | opened : Follows ix K chain .new .empty
  | applied {p : Progress} {s : Store} {o : Height} {segment : Segment} {m : Summary}
    (before : Follows ix K chain p s) (source : SegmentSource) (honest : source.Honest chain)
    (k : Querier) (asked : List Query) (start : ix.offset p s = .ok o)
    (fetched : source o = .ok segment) (kind : K segment k)
    (applied : (ix.pass source p s k asked).1.result = .ok (.applied m)) :
    Follows ix K chain (ix.pass source p s k asked).1.progress (ix.pass source p s k asked).1.store
  | unapplied {p : Progress} {s : Store} (before : Follows ix K chain p s)
    (source : SegmentSource) (k : Querier) (asked : List Query)
    (unapplied : ∀ m, (ix.pass source p s k asked).1.result ≠ .ok (.applied m)) :
    Follows ix K chain (ix.pass source p s k asked).1.progress (ix.pass source p s k asked).1.store
  | refused {p : Progress} {s : Store} {o : Height} (before : Follows ix K chain p s)
    (start : ix.offset p s = .ok o) : Follows ix K chain ⟨some o, .persisting⟩ s
  | restarted {p : Progress} {s : Store} (before : Follows ix K chain p s) :
    Follows ix K chain .new s

theorem Follows.take {source : SegmentSource} {m : Summary} {t : Store}
    (h : ix.Follows K chain p s) (hstart : ix.offset p s = .ok o) (honest : source.Honest chain)
    (hsegment : source o = .ok ⟨txs, next⟩) (hmoved : next ≠ o) (hk : k.Steady)
    (kind : K ⟨txs, next⟩ k)
    (htaken : takeIn? s o (value k (ix.derive s txs next (Extraction.ofAll ix.registry k txs))) =
      some (m, t)) : ix.Follows K chain .new t := by
  obtain ⟨happlied, hstore⟩ := applied_of_takeIn? [] hk hsegment hmoved htaken
  rw [← pass_of_offset (p := p) hstart] at happlied hstore
  rw [← hstore]
  exact .restarted (h.applied source honest k [] hstart hsegment kind happlied)

/-- What the empty store has and an applied segment keeps, every store has. What is remembered
is neither behind nor ahead of what is stored. -/
theorem Follows.invariant {P : Height → Store → List Swap → List LiquidityChange → Prop}
    (empty : P ix.initialHeight .empty [] [])
    (step : ∀ {o next s swaps liquidity k x b}, ix.Holds chain o s swaps liquidity →
      P o s swaps liquidity → o < next → K ⟨chain.between o next, next⟩ k →
        ix.Applies k s (chain.between o next) next x b →
          P next (s.after b) (swaps ++ b.swaps) (liquidity ++ b.liquidity))
    (h : ix.Follows K chain p s) :
    ∃ o swaps liquidity, ix.Holds chain o s swaps liquidity ∧ P o s swaps liquidity ∧
      (p.checkpoint = none ∨ p.checkpoint = some o) := by
  -- only an applied pass changes the tables, and it goes on from the height they are held at
  induction h with
  | opened => exact ⟨_, _, _, holds_empty ix chain, empty, .inl rfl⟩
  | @applied p s o segment m _ source honest k asked start fetched kind applied ih =>
    obtain ⟨o, swaps, liquidity, hs, hP, hp⟩ := ih
    cases start.symm.trans (offset_of_start hs.start hp)
    rw [pass_of_offset start] at applied ⊢
    obtain ⟨txs, next, b, hsegment, hmoved, ⟨m, hb⟩, fits, hstore, hcheckpoint⟩ :=
      exists_processed applied
    cases fetched.symm.trans hsegment
    obtain ⟨hle, htxs⟩ := honest o _ fetched
    simp only at hle htxs
    subst htxs
    obtain ⟨x, happlies⟩ := process_applies hb fits
    have hlt : o < next := by
      simp only [Ranged.le_def, Ranged.lt_def, Ranged.ext_iff, ne_eq] at *
      omega
    rw [hstore]
    exact ⟨next, _, _, hs.after hle happlies, step hs hP hlt kind happlies, .inr hcheckpoint⟩
  | @unapplied p s _ source k asked unapplied ih =>
    obtain ⟨o, swaps, liquidity, hs, hP, hp⟩ := ih
    have hpass : Always (ix.pass source p s) _ := pass_keeps_or_applies (offset_of_start hs.start hp)
    rcases hpass k asked with ⟨hstore, hcheckpoint⟩ | ⟨m, hm⟩
    · rw [hstore]
      exact ⟨o, swaps, liquidity, hs, hP, .inr hcheckpoint⟩
    · exact absurd hm (unapplied m)
  | @refused p s o _ start ih =>
    obtain ⟨o, swaps, liquidity, hs, hP, hp⟩ := ih
    cases start.symm.trans (offset_of_start hs.start hp)
    exact ⟨o, swaps, liquidity, hs, hP, .inr rfl⟩
  | restarted _ ih =>
    obtain ⟨o, swaps, liquidity, hs, hP, -⟩ := ih
    exact ⟨o, swaps, liquidity, hs, hP, .inl rfl⟩

end Indexer

end PoolLedger
