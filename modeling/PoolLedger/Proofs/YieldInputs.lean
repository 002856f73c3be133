import PoolLedger.Proofs.Endings
import PoolLedger.Proofs.Ingestion
import PoolLedger.Proofs.Renewal
import PoolLedger.Proofs.YieldTable

/-! The inputs of yields over many passes. Each batch asks again for some inputs of
some pairs, and some of its questions fail. The latest record of a pair holds, of
each input, what was last told about it in the passes that were applied. -/

namespace PoolLedger

open Asking

namespace Indexer

variable {ix : Indexer} {k : Querier} {asked : List Query} {s : Store} {txs : List Transaction}
  {next o : Height} {x : Extraction} {source : SegmentSource} {p : Progress}

def extracted (ix : Indexer) (k : Querier) (asked : List Query) (txs : List Transaction) :
    Extraction :=
  .concat (txs.mapM (Extraction.ofTransaction ix.registry) k asked).1

def stale (ix : Indexer) (x : Extraction) : AprTriggers :=
  AprTriggers.collect ix.registry ((bucketed? ix.bucketWidth (keepLast x.liquidity)).getD [])
    x.staking

def Renews (ix : Indexer) (s : Store) (txs : List Transaction) (next : Height) (x : Extraction)
    (b : Batch) (said : List Said) : Prop :=
  Apr.Renewed ix.registry s.latestApr (ix.stale x) (moment txs next).1 (moment txs next).2 b.aprs said

theorem derive_speaks (ix : Indexer) (s : Store) (txs : List Transaction) (next : Height)
    (x : Extraction) :
    Speaks (ix.derive s txs next x) fun v said =>
      ∀ b m, v = .ok (b, m) → ix.Renews s txs next x b said := by
  unfold derive
  split
  · rename_i swaps liquidity hw hl
    refine (Snapshot.resolveSeeds_quiet _ _ _).speaks_bind fun seeds => ?_
    split
    · exact speaks_pure nofun
    · split
      · exact speaks_pure nofun
      · refine (Apr.refresh_speaks _ _ _ _ _).bind_pure fun v => ?_
        split
        · exact ⟨_, rfl, fun _ _ => nofun⟩
        · rename_i aprs
          refine ⟨_, rfl, fun said hsaid b m hb => ?_⟩
          cases hb
          rw [Renews, stale, hl]
          exact hsaid aprs rfl
  · exact speaks_pure nofun

theorem process_speaks (ix : Indexer) (s : Store) (txs : List Transaction) (next : Height) :
    Asks (fun _ => True) (ix.process s txs next) ∧ ∀ k asked b m,
      (ix.process s txs next k asked).1 = .ok (b, m) →
        ix.Renews s txs next (ix.extracted k asked txs) b
          (yields k asked (ix.process s txs next)) := by
  have hquiet : Quiet (txs.mapM (Extraction.ofTransaction ix.registry)) :=
    Asks.mapM _ fun tx _ => Extraction.ofTransaction_quiet ix.registry tx
  have hderive (x : Extraction) := ix.derive_speaks s txs next x
  refine ⟨(hquiet.mono fun _ _ => trivial).bind fun parts => (hderive _).1,
    fun k asked b m hb => ?_⟩
  rw [process, hquiet.yields_bind (hderive _).1]
  exact (hderive _).2 k _ b m hb

theorem yields_passFrom {txs : List Transaction} {next : Height}
    (hsegment : source o = .ok ⟨txs, next⟩) (hmoved : next ≠ o) :
    yields k asked (ix.passFrom source o s) = yields k asked (ix.process s txs next) := by
  unfold passFrom
  rw [hsegment]
  simp only
  rw [if_neg hmoved, yields_bind_pure (ix.process_speaks s txs next).1]
  split
  · exact ⟨_, rfl⟩
  · split
    · exact ⟨_, rfl⟩
    · exact ⟨_, rfl⟩

theorem passFrom_applied {m : Summary}
    (h : (ix.passFrom source o s k asked).1.result = .ok (.applied m)) :
    ∃ txs next b, source o = .ok ⟨txs, next⟩ ∧ b.Fits ∧
      (ix.passFrom source o s k asked).1.store = s.after b ∧
      ix.Renews s txs next (ix.extracted k asked txs) b
        (yields k asked (ix.passFrom source o s)) := by
  obtain ⟨txs, next, b, hsegment, hmoved, ⟨m', hb⟩, hfits, hstore, -⟩ := exists_processed h
  refine ⟨txs, next, b, hsegment, hfits, hstore, ?_⟩
  rw [yields_passFrom hsegment hmoved]
  exact (ix.process_speaks s txs next).2 k asked b m' hb

end Indexer

/-- An applied batch, with all that was said about yields in its pass. -/
structure Round where
  height : Height
  triggers : AprTriggers
  pairs : List Pair
  known : String → Bool
  said : List Said

namespace Round

def stretches (r : Round) : List (Pair × List Said) :=
  Apr.stretches r.triggers r.known r.pairs r.said

def about (r : Round) (a : String) : List Said :=
  ((r.stretches.reverse.find? fun e => e.1.address = a).map Prod.snd).getD []

theorem about_of_isLastAt {r : Round} {e : Pair × List Said}
    (h : IsLastAt (fun e => e.1.address) r.stretches e) : r.about e.1.address = e.2 := by
  rw [IsLastAt] at h
  rw [about, h]
  rfl

theorem about_eq_nil {r : Round} {a : String} (h : ∀ e ∈ r.stretches, e.1.address ≠ a) :
    r.about a = [] := by
  have hnone : r.stretches.reverse.find? (fun e => e.1.address = a) = none := by
    simpa using h
  rw [about, hnone]
  rfl

end Round

def toldAbout (rounds : List Round) (a : String) : List Said := rounds.flatMap fun r => r.about a

theorem toldAbout_concat (rounds : List Round) (r : Round) (a : String) :
    toldAbout (rounds ++ [r]) a = toldAbout rounds a ++ r.about a := by
  simp [toldAbout]

structure AprRecord.Carries (x : AprRecord) (i : Apr.Inputs) : Prop where
  totalSupply : x.totalSupply = i.totalSupply
  totalBond : x.totalBond = i.totalBond
  rewards : x.rewards = Asset.writeList i.rewards

theorem AprRecord.Carries.ofRecord_eq {x : AprRecord} {i : Apr.Inputs} (h : x.Carries i) :
    Apr.Inputs.ofRecord x = i := by
  rw [Apr.Inputs.ofRecord, h.totalSupply, h.totalBond, h.rewards, Asset.readList?_writeList]
  rfl

/-- The newest record at an address, with the inputs told last. -/
structure Standing (rounds : List Round) (s : Store) (a : String) (x : AprRecord) : Prop where
  fits : Record.Fits x
  pairAddress : x.pairAddress = a
  key : x.uniqueKey = heightKey x.height a
  mem : Record.stored x ∈ s.aprs
  lower : ∀ row ∈ s.aprs, row.textIs 0 a = true → row ≠ Record.stored x →
    row.integerAt 1 < x.height.val
  carries : x.Carries (Apr.Inputs.none.heard (toldAbout rounds a))

theorem Standing.latestApr_eq {rounds : List Round} {s : Store} {a : String} {x : AprRecord}
    (h : Standing rounds s a x) :
    s.latestApr a = .ok (some { x with apr := if x.apr == 0.0 then 0.0 else x.apr }) := by
  obtain ⟨hfits, rfl, -, hmem, hlower, -⟩ := h
  exact Store.latestApr_eq_some hfits hmem hlower

theorem Store.latestApr_eq_none {s : Store} {a : String}
    (h : ∀ row ∈ s.aprs, row.textIs 0 a = false) : s.latestApr a = .ok none := by
  have hnil : s.aprs.filter (fun r => r.textIs 0 a) = [] := by
    rw [List.filter_eq_nil_iff]
    intro row hrow
    simp [h row hrow]
  rw [Store.latestApr, hnil, List.reverse_nil, latestBy, List.mergeSort_nil]
  rfl

structure Unknown (rounds : List Round) (s : Store) (a : String) : Prop where
  rows : ∀ row ∈ s.aprs, row.textIs 0 a = false
  told : toldAbout rounds a = []

/-- The table of yields after some rounds. -/
structure Tells (rounds : List Round) (s : Store) : Prop where
  heights : ∀ row ∈ s.aprs, ∃ r ∈ rounds, row.integerAt 1 = r.height.val
  standing : ∀ a, (∃ x, Standing rounds s a x) ∨ Unknown rounds s a
  accounted : ∀ r ∈ rounds, Apr.Accounted r.triggers r.known r.pairs r.said

namespace Tells

variable {rounds : List Round} {s : Store} {b : Batch} {r : Round} {u : Timestamp}
  {registry : Registry}

theorem empty : Tells [] .empty := by
  constructor
  · intro row hrow
    cases hrow
  · exact fun a => Or.inr ⟨fun row hrow => absurd hrow List.not_mem_nil, rfl⟩
  · intro r hr
    cases hr

theorem past_eq (h : Tells rounds s) (p : Pair) :
    (Apr.pastInputs s.latestApr p).getD .none =
      Apr.Inputs.none.heard (toldAbout rounds p.address) := by
  rw [Apr.pastInputs, Apr.pastOf]
  obtain ⟨x, hx⟩ | hunknown := h.standing p.address
  · rw [hx.latestApr_eq]
    exact hx.carries.ofRecord_eq
  · rw [Store.latestApr_eq_none hunknown.rows, hunknown.told]
    rfl

structure Continues (registry : Registry) (rounds : List Round) (s : Store) (b : Batch)
    (r : Round) : Prop where
  pairs : r.pairs = Apr.toRenew r.triggers registry
  known : r.known = Apr.hasRecord s.latestApr
  later : ∀ r' ∈ rounds, r'.height < r.height
  renewed : ∃ u, Apr.Renewed registry s.latestApr r.triggers r.height u b.aprs r.said
  fits : b.Fits

def recordOf (m : Market) (u : Timestamp) (rounds : List Round) (r : Round)
    (e : Pair × List Said) : AprRecord :=
  Apr.record m r.height u e.1
    ((Apr.Inputs.none.heard (toldAbout rounds e.1.address)).heard e.2)

theorem yieldsAt (m : Market) (u : Timestamp) (rounds : List Round) (r : Round) :
    YieldsAt (fun e : Pair × List Said => e.1.address) r.height (recordOf m u rounds r) :=
  ⟨fun _ => rfl, fun _ => rfl, fun _ => rfl⟩

theorem aprs_after {m : Market} (haprs : b.aprs = r.stretches.map (recordOf m u rounds r)) :
    (s.after b).aprs = s.insertAll (r.stretches.map (recordOf m u rounds r)) :=
  congrArg s.insertAll haprs

section After

variable (h : Tells rounds s) (hr : Continues registry rounds s b r)
include h hr

theorem aprs_eq : ∃ m u, b.aprs = r.stretches.map (recordOf m u rounds r) := by
  obtain ⟨u, hrenewed⟩ := hr.renewed
  obtain ⟨m, hm⟩ := hrenewed.records
  refine ⟨m, u, ?_⟩
  rw [hm, Round.stretches, hr.pairs, hr.known]
  simp only [h.past_eq]
  rfl

theorem older : ∀ row ∈ s.aprs, row.integerAt 1 < r.height.val := by
  intro row hrow
  obtain ⟨r', hr', he⟩ := h.heights row hrow
  rw [he]
  exact hr.later r' hr'

theorem standing_of_isLastAt {m : Market}
    (haprs : b.aprs = r.stretches.map (recordOf m u rounds r)) {e : Pair × List Said}
    (he : IsLastAt (fun e => e.1.address) r.stretches e) :
    Standing (rounds ++ [r]) (s.after b) e.1.address (recordOf m u rounds r e) := by
  obtain ⟨hmem, hlower⟩ :=
    (yieldsAt m u rounds r).lower_insertAll (h.older hr) (aprs_after haprs) he
  refine ⟨?_, rfl, rfl, hmem, hlower, ?_⟩
  · apply hr.fits.aprs
    rw [haprs]
    exact List.mem_map_of_mem (List.mem_reverse.1 (List.mem_of_find?_eq_some he))
  · rw [toldAbout_concat, Round.about_of_isLastAt he, Apr.Inputs.heard_append]
    exact ⟨rfl, rfl, rfl⟩

theorem standing_of_untouched {m : Market}
    (haprs : b.aprs = r.stretches.map (recordOf m u rounds r)) {a : String}
    (ha : ∀ e ∈ r.stretches, e.1.address ≠ a) :
    (∀ row ∈ (s.after b).aprs, row.textIs 0 a = true → row ∈ s.aprs) ∧
      ∀ x, Standing rounds s a x → Standing (rounds ++ [r]) (s.after b) a x := by
  have hy := yieldsAt m u rounds r
  have hmem {row : Row} : row ∈ s.insertAll (r.stretches.map (recordOf m u rounds r)) ↔ _ :=
    hy.mem_insertAll
  have hold : ∀ row ∈ (s.after b).aprs, row.textIs 0 a = true → row ∈ s.aprs := by
    intro row hrow ht
    rw [aprs_after haprs] at hrow
    obtain ⟨e, he, rfl⟩ | ⟨-, hrow⟩ := hmem.1 hrow
    · have hm := List.mem_reverse.1 (List.mem_of_find?_eq_some he)
      rw [textIs_stored_apr, hy.pairAddress] at ht
      exact absurd ht (ha e hm)
    · exact hrow
  refine ⟨hold, fun x hx => ⟨hx.fits, hx.pairAddress, hx.key, ?_, ?_, ?_⟩⟩
  · rw [aprs_after haprs]
    refine hmem.2 (Or.inr ⟨?_, hx.mem⟩)
    -- the new rows are higher, so none of them has the key of this one
    rw [Option.eq_none_iff_forall_ne_some]
    intro row hrow
    obtain ⟨e, -, -, hkey⟩ := hy.lastWith_eq_some.1 hrow
    have hlt := h.older hr _ hx.mem
    rw [keyOf_stored_apr, hx.key, Option.some.injEq, Cell.text.injEq, heightKey_inj] at hkey
    rw [integerAt_stored_apr hx.fits, hkey.1] at hlt
    exact absurd hlt (Int.lt_irrefl _)
  · exact fun row hrow ht hne => hx.lower row (hold row hrow ht) ht hne
  · rw [toldAbout_concat, Round.about_eq_nil ha, List.append_nil]
    exact hx.carries

theorem standing_after {m : Market}
    (haprs : b.aprs = r.stretches.map (recordOf m u rounds r)) (a : String) :
    (∃ x, Standing (rounds ++ [r]) (s.after b) a x) ∨ Unknown (rounds ++ [r]) (s.after b) a := by
  by_cases ha : ∃ e ∈ r.stretches, e.1.address = a
  · obtain ⟨e, he, rfl⟩ := ha
    obtain ⟨q, hq, -, haddress⟩ := exists_isLastAt (fun e : Pair × List Said => e.1.address) he
    have hx := h.standing_of_isLastAt hr haprs hq
    rw [haddress] at hx
    exact Or.inl ⟨_, hx⟩
  · have ha : ∀ e ∈ r.stretches, e.1.address ≠ a := by simpa using ha
    obtain ⟨hold, hkeeps⟩ := h.standing_of_untouched hr haprs ha
    obtain ⟨x, hx⟩ | hunknown := h.standing a
    · exact Or.inl ⟨x, hkeeps x hx⟩
    · refine Or.inr ⟨fun row hrow => ?_, ?_⟩
      · rw [Bool.eq_false_iff]
        intro ht
        exact Bool.eq_false_iff.1 (hunknown.rows row (hold row hrow ht)) ht
      · rw [toldAbout_concat, Round.about_eq_nil ha, hunknown.told]
        rfl

end After

theorem after (h : Tells rounds s) (hr : Continues registry rounds s b r) :
    Tells (rounds ++ [r]) (s.after b) := by
  obtain ⟨m, u, haprs⟩ := h.aprs_eq hr
  refine ⟨fun row hrow => ?_, h.standing_after hr haprs, ?_⟩
  · rw [aprs_after haprs] at hrow
    obtain ⟨e, he, rfl⟩ | ⟨-, hrow⟩ := (yieldsAt m u rounds r).mem_insertAll.1 hrow
    · refine ⟨r, by simp, ?_⟩
      have hfits := (h.standing_of_isLastAt hr haprs he).fits
      rw [integerAt_stored_apr hfits]
      rfl
    · obtain ⟨r', hr', he⟩ := h.heights row hrow
      exact ⟨r', List.mem_append_left _ hr', he⟩
  · intro r' hr'
    rcases List.mem_append.1 hr' with hr' | hr'
    · exact h.accounted r' hr'
    · obtain rfl := List.mem_singleton.1 hr'
      obtain ⟨u, hrenewed⟩ := hr.renewed
      rw [hr.pairs, hr.known]
      exact hrenewed.accounted

end Tells

namespace Indexer

variable {ix : Indexer} {rounds : List Round} {s : Store}

def round (ix : Indexer) (k : Querier) (asked : List Query) (source : SegmentSource)
    (p : Progress) (s : Store) (segment : Segment) : Round where
  height := (moment segment.transactions segment.next).1
  triggers := ix.stale (ix.extracted k asked segment.transactions)
  pairs := Apr.toRenew (ix.stale (ix.extracted k asked segment.transactions)) ix.registry
  known := Apr.hasRecord s.latestApr
  said := yields k asked (ix.pass source p s)

/-- Passes over a store that was opened empty, each with a source, a progress and
answers of its own. The heights of applied batches increase. -/
inductive Collects (ix : Indexer) : List Round → Store → Prop
  | opened : Collects ix [] .empty
  | applied {rounds : List Round} {s : Store} (before : Collects ix rounds s) (k : Querier)
    (asked : List Query) (source : SegmentSource) (p : Progress) {o : Height} {segment : Segment}
    (start : ix.offset p s = .ok o) (fetched : source o = .ok segment)
    (applied : ∃ m, (ix.pass source p s k asked).1.result = .ok (.applied m))
    (later : ∀ r ∈ rounds, r.height < (moment segment.transactions segment.next).1) :
    Collects ix (rounds ++ [ix.round k asked source p s segment])
      (ix.pass source p s k asked).1.store
  | unapplied {rounds : List Round} {s : Store} (before : Collects ix rounds s) (k : Querier)
    (asked : List Query) (source : SegmentSource) (p : Progress)
    (unapplied : ∀ m, (ix.pass source p s k asked).1.result ≠ .ok (.applied m)) :
    Collects ix rounds (ix.pass source p s k asked).1.store

theorem pass_store_of_unapplied {k : Querier} {asked : List Query} {source : SegmentSource}
    {p : Progress} (h : ∀ m, (ix.pass source p s k asked).1.result ≠ .ok (.applied m)) :
    (ix.pass source p s k asked).1.store = s := by
  have hpass : Always (ix.pass source p s) _ := pass_ends
  obtain ⟨e, -, hr⟩ | ⟨o, -, hends⟩ := hpass k asked
  · rw [hr]
  · generalize (ix.pass source p s k asked).1 = r at h hends
    cases hends with
    | applied txs next segment moved x extracted b settled fits m => exact absurd rfl (h m)
    | _ => rfl

theorem Collects.tells (h : ix.Collects rounds s) : Tells rounds s := by
  induction h with
  | opened => exact .empty
  | @applied rounds s _ k asked source p o segment start fetched applied later ih =>
    obtain ⟨m, hm⟩ := applied
    rw [pass_of_offset start] at hm ⊢
    obtain ⟨txs, next, b, hsegment, hfits, hstore, hrenews⟩ := passFrom_applied hm
    cases fetched.symm.trans hsegment
    rw [hstore]
    rw [← pass_of_offset start] at hrenews
    exact ih.after ⟨rfl, rfl, later, ⟨_, hrenews⟩, hfits⟩
  | unapplied _ k asked source p unapplied ih =>
    rw [pass_store_of_unapplied unapplied]
    exact ih

/-- The latest record of a pair holds what was last told about each of its inputs in
the applied batches, and of an input that was never told zero or nothing. Each
batch asks the pairs in turn for their stale inputs, so what it is told falls into
stretches. Rewards are read back as they were written. -/
theorem latest_inputs_told (h : ix.Collects rounds s) :
    (∀ a, (∃ row ∈ s.aprs, row.textIs 0 a = true) → ∃ x, s.latestApr a = .ok (some x) ∧
      x.totalSupply = ((toldAbout rounds a).filterMap Said.supply?).getLast?.getD 0 ∧
      x.totalBond = ((toldAbout rounds a).filterMap Said.bond?).getLast?.getD 0 ∧
      Asset.readList? x.rewards =
        some (((toldAbout rounds a).filterMap Said.rewards?).getLast?.getD [])) ∧
    (∀ r ∈ rounds, r.stretches.map Prod.fst = r.pairs ∧ r.stretches.flatMap Prod.snd = r.said ∧
      ∀ e ∈ r.stretches, e.2.map Said.question = Apr.wanted r.triggers e.1 (r.known e.1.address)) ∧
    ∀ rewards : List Asset, Asset.readList? (Asset.writeList rewards) = some rewards := by
  have htells := h.tells
  refine ⟨fun a hrow => ?_, fun r hr => ?_, Asset.readList?_writeList⟩
  · obtain ⟨row, hrow, ht⟩ := hrow
    obtain ⟨x, hx⟩ | hunknown := htells.standing a
    · refine ⟨_, hx.latestApr_eq, hx.carries.totalSupply, hx.carries.totalBond, ?_⟩
      have hrewards : x.rewards = _ := hx.carries.rewards
      rw [hrewards, Asset.readList?_writeList]
      rfl
    · exact absurd ht (by simp [hunknown.rows row hrow])
  · obtain ⟨heach, hall, hquestions⟩ := htells.accounted r hr
    exact ⟨heach, hall, hquestions⟩

end Indexer

namespace Unbondings

def unbonding (height : Height) : Transaction where
  hash := "B"
  height := height
  index := 0
  code := 0
  rawLog := ""
  bytes := writeExecutions [⟨"trader", "staking",
    "\x7b\"unbond\":\x7b\"staking_token\":\"lp\",\"amount\":\"5\"\x7d\x7d".toUTF8.toList, []⟩]
  timestamp := 90

def segment (height next : Height) : Segment := ⟨[unbonding height], next⟩

def supplyTeller : Querier := .fixed fun q =>
  match q with
  | .totalSupply _ => .ok 7
  | .rewards _ => .ok [⟨.native "orai", 3⟩]
  | .totalBond _ | .pool _ _ | .listing _ _ _ => .error (.query "unknown")

def bondTeller : Querier := .fixed fun q =>
  match q with
  | .totalBond _ => .ok 3
  | .totalSupply _ | .rewards _ | .pool _ _ | .listing _ _ _ => .error (.query "unknown")

def first : Indexer.Pass :=
  (Sample.indexer.pass (fun _ => .ok (segment 110 120)) .new .empty supplyTeller []).1

def second : Indexer.Pass :=
  (Sample.indexer.pass (fun _ => .ok (segment 130 140)) .new first.store bondTeller []).1

def rounds : List Round :=
  [Sample.indexer.round supplyTeller [] (fun _ => .ok (segment 110 120)) .new .empty
      (segment 110 120),
    Sample.indexer.round bondTeller [] (fun _ => .ok (segment 130 140)) .new first.store
      (segment 130 140)]

theorem applied :
    first.result = .ok (.applied ⟨100, 120, 1, 0, 0, 1, 0, 0, 1, 0⟩) ∧
      Sample.indexer.offset .new first.store = .ok 120 ∧
      second.result = .ok (.applied ⟨120, 140, 1, 0, 0, 1, 0, 0, 1, 0⟩) := by
  decide +kernel

theorem collects : Sample.indexer.Collects rounds second.store := by
  obtain ⟨hfirst, hoffset, hsecond⟩ := applied
  have hone : Sample.indexer.Collects (rounds.take 1) first.store :=
    .applied .opened supplyTeller [] (fun _ => .ok (segment 110 120)) .new rfl rfl ⟨_, hfirst⟩
      nofun
  refine .applied hone bondTeller [] (fun _ => .ok (segment 130 140)) .new hoffset rfl
    ⟨_, hsecond⟩ fun r hr => ?_
  rw [List.mem_singleton.1 hr]
  decide

end Unbondings

namespace Indexer

theorem inputs_told_in_two_rounds :
    Sample.indexer.Collects Unbondings.rounds Unbondings.second.store ∧
      ∃ x, Unbondings.second.store.latestApr "pool" = .ok (some x) ∧ x.totalSupply = 7 ∧
        x.totalBond = 3 ∧ Asset.readList? x.rewards = some [⟨.native "orai", 3⟩] := by
  have hrow : ∃ row ∈ Unbondings.second.store.aprs, row.textIs 0 "pool" = true := by
    decide +kernel
  have htold : ((toldAbout Unbondings.rounds "pool").filterMap Said.supply?).getLast? = some 7 ∧
      ((toldAbout Unbondings.rounds "pool").filterMap Said.bond?).getLast? = some 3 ∧
      ((toldAbout Unbondings.rounds "pool").filterMap Said.rewards?).getLast? =
        some [⟨.native "orai", 3⟩] := by
    decide +kernel
  obtain ⟨hlatest, -, -⟩ := latest_inputs_told Unbondings.collects
  obtain ⟨x, hx, hsupply, hbond, hrewards⟩ := hlatest "pool" hrow
  rw [htold.1] at hsupply
  rw [htold.2.1] at hbond
  rw [htold.2.2] at hrewards
  exact ⟨Unbondings.collects, x, hx, hsupply, hbond, hrewards⟩

end Indexer

end PoolLedger
