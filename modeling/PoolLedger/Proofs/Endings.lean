import PoolLedger.Proofs.Pass

/-! All ways in which a pass can end, whoever answers its questions. The answers
decide about seeds, fees and yields. Which swaps there are and which candles are
built is settled by the segment and the store. -/

namespace PoolLedger

open Asking

namespace Indexer

variable {ix : Indexer} {s : Store} {txs : List Transaction} {next : Height} {x : Extraction}

/-- The parts of a batch that no answer decides. Of its snapshots only the seeds are told. -/
structure Settles (ix : Indexer) (s : Store) (next : Height) (x : Extraction) (b : Batch) :
    Prop where
  swaps : bucketed? ix.bucketWidth (keepLast x.swaps) = some b.swaps
  liquidity : bucketed? ix.bucketWidth (keepLast x.liquidity) = some b.liquidity
  snapshots : ∃ seeds, b.snapshots = Snapshot.accumulate ix.registry seeds b.swaps b.liquidity
  candles : rebuildCandles s b.swaps = .ok b.candles
  checkpoint : b.checkpoint = next

/-- What can come of the events of a segment. -/
inductive Derivation (ix : Indexer) (s : Store) (next : Height) (x : Extraction) :
    Except Fault (Batch × Summary) → Prop
  | unbucketed (none : bucketed? ix.bucketWidth (keepLast x.swaps) = none ∨
      bucketed? ix.bucketWidth (keepLast x.liquidity) = none) :
    Derivation ix s next x (.error .overflow)
  | unread (e : IndexerError) (row : (∃ a h, s.latestReserveBefore a h = .error e) ∨
      ∃ a, s.latestApr a = .error e) :
    Derivation ix s next x (.error (.failed e))
  | unbuilt (swaps : List Swap)
    (bucketed : bucketed? ix.bucketWidth (keepLast x.swaps) = some swaps) (f : Fault)
    (candles : rebuildCandles s swaps = .error f) : Derivation ix s next x (.error f)
  | derived (b : Batch) (m : Summary) (settled : ix.Settles s next x b) :
    Derivation ix s next x (.ok (b, m))

theorem resolveSeeds_ends (r : Registry)
    (stored : String → Height → Except IndexerError (Option Snapshot))
    (first : List (String × Height)) :
    Always (Snapshot.resolveSeeds r stored first) fun v =>
      ∀ e, v = .error e → ∃ a h, stored a h = .error e := by
  unfold Snapshot.resolveSeeds
  split
  · rename_i e he
    refine always_pure fun e' heq => ?_
    cases heq
    obtain ⟨⟨a, h⟩, -, hstored⟩ := Traverse.exists_error_of_mapM he
    exact ⟨a, h, Traverse.error_of_map hstored⟩
  · refine Always.bind (P := fun _ => True) (fun _ _ => trivial) fun cold _ => ?_
    exact always_pure nofun

theorem refresh_ends (r : Registry)
    (latest : String → Except IndexerError (Option AprRecord)) (t : AprTriggers)
    (height : Height) (timestamp : Timestamp) :
    Always (Apr.refresh r latest t height timestamp) fun v =>
      ∀ e, v = .error e → ∃ a, latest a = .error e := by
  unfold Apr.refresh
  extract_lets pairs
  split
  · exact always_pure nofun
  · split
    · rename_i e he
      refine always_pure fun e' heq => ?_
      cases heq
      obtain ⟨p, -, hp⟩ := Traverse.exists_error_of_mapM he
      exact ⟨p.address, Traverse.error_of_map hp⟩
    · refine Always.bind (P := fun _ => True) (fun _ _ => trivial) fun inputs _ => ?_
      refine Always.bind (P := fun _ => True) (fun _ _ => trivial) fun market _ => ?_
      exact always_pure nofun

theorem derive_ends : Always (ix.derive s txs next x) (ix.Derivation s next x) := by
  unfold derive
  split
  · rename_i swaps liquidity hw hl
    refine (resolveSeeds_ends ix.registry s.latestReserveBefore _).bind fun found hfound => ?_
    split
    · rename_i e
      exact always_pure (.unread e (.inl (hfound e rfl)))
    · rename_i seeds
      split
      · rename_i f hf
        exact always_pure (.unbuilt swaps hw f hf)
      · rename_i candles hc
        refine (refresh_ends ix.registry s.latestApr _ _ _).bind fun aprs haprs => ?_
        split
        · rename_i e
          exact always_pure (.unread e (.inr (haprs e rfl)))
        · exact always_pure (.derived _ _ ⟨hw, hl, ⟨seeds, rfl⟩, hc, rfl⟩)
  · rename_i hnone
    refine always_pure (.unbucketed ?_)
    rw [← Option.not_isSome_iff_eq_none, ← Option.not_isSome_iff_eq_none, ← not_and_or]
    rintro ⟨hw, hl⟩
    exact hnone _ _ (Option.some_get hw).symm (Option.some_get hl).symm

theorem process_ends : Always (ix.process s txs next) fun v =>
    ∃ x, Extraction.Of ix.registry txs x ∧ ix.Derivation s next x v :=
  (Extraction.always_of ix.registry txs).bind fun parts hparts k before =>
    ⟨.concat parts, hparts, derive_ends k before⟩

variable {source : SegmentSource} {o : Height} {p : Progress}

/-- All that a pass from some height can come to. -/
inductive Pass.Ends (ix : Indexer) (source : SegmentSource) (o : Height) (s : Store) :
    Pass → Prop
  | unfetched (e : IndexerError) (segment : source o = .error e) :
    Ends ix source o s ⟨.error (.failed e), ⟨some o, .fetching⟩, s⟩
  | idle (txs : List Transaction) (segment : source o = .ok ⟨txs, o⟩) :
    Ends ix source o s ⟨.ok .noNewData, ⟨some o, .idle⟩, s⟩
  | unprocessed (txs : List Transaction) (next : Height) (segment : source o = .ok ⟨txs, next⟩)
    (moved : next ≠ o) (x : Extraction) (extracted : Extraction.Of ix.registry txs x) (f : Fault)
    (derivation : ix.Derivation s next x (.error f)) :
    Ends ix source o s ⟨.error f, ⟨some o, .processing⟩, s⟩
  | unpersisted (txs : List Transaction) (next : Height) (segment : source o = .ok ⟨txs, next⟩)
    (moved : next ≠ o) (x : Extraction) (extracted : Extraction.Of ix.registry txs x) (b : Batch)
    (settled : ix.Settles s next x b) (e : IndexerError) (refused : s.persist b = .error e) :
    Ends ix source o s ⟨.error (.failed e), ⟨some o, .persisting⟩, s⟩
  | applied (txs : List Transaction) (next : Height) (segment : source o = .ok ⟨txs, next⟩)
    (moved : next ≠ o) (x : Extraction) (extracted : Extraction.Of ix.registry txs x) (b : Batch)
    (settled : ix.Settles s next x b) (fits : b.Fits) (m : Summary) :
    Ends ix source o s ⟨.ok (.applied m), ⟨some next, .idle⟩, s.after b⟩

theorem passFrom_ends : Always (ix.passFrom source o s) (Pass.Ends ix source o s) := by
  unfold passFrom
  split
  · rename_i e he
    exact always_pure (.unfetched e he)
  · rename_i segment hsegment
    obtain ⟨txs, next⟩ := segment
    split
    · rename_i hnext
      cases hnext
      exact always_pure (.idle txs hsegment)
    · rename_i hmoved
      refine process_ends.bind fun v hv => ?_
      obtain ⟨x, hx, hd⟩ := hv
      split
      · rename_i f
        exact always_pure (.unprocessed txs next hsegment hmoved x hx f hd)
      · rename_i b m
        cases hd with
        | derived _ _ settled =>
          split
          · rename_i e he
            exact always_pure (.unpersisted txs next hsegment hmoved x hx b settled e he)
          · rename_i s' hs'
            obtain ⟨fits, rfl⟩ := Store.persist_ok.1 hs'
            exact always_pure (.applied txs next hsegment hmoved x hx b settled fits _)

theorem pass_ends : Always (ix.pass source p s) fun r =>
    (∃ e, ix.offset p s = .error e ∧ r = ⟨.error (.failed e), p, s⟩) ∨
      ∃ o, ix.offset p s = .ok o ∧ Pass.Ends ix source o s r := by
  cases ho : ix.offset p s with
  | error e =>
    refine fun k before => .inl ⟨e, rfl, ?_⟩
    unfold offset at ho
    unfold pass
    split at ho
    · cases ho
    · rename_i hp
      simp only [hp, ho]
      rfl
  | ok o =>
    rw [pass_of_offset ho]
    exact fun k before => .inr ⟨o, rfl, passFrom_ends k before⟩

theorem exists_processed {k : Querier} {asked : List Query} {m : Summary}
    (h : (ix.passFrom source o s k asked).1.result = .ok (.applied m)) :
    ∃ txs next b, source o = .ok ⟨txs, next⟩ ∧ next ≠ o ∧
      (∃ m', (ix.process s txs next k asked).1 = .ok (b, m')) ∧ b.Fits ∧
      (ix.passFrom source o s k asked).1.store = s.after b ∧
      (ix.passFrom source o s k asked).1.progress.checkpoint = some next := by
  unfold passFrom at h ⊢
  cases hsegment : source o with
  | error e =>
    rw [hsegment] at h
    cases h
  | ok segment =>
    obtain ⟨txs, next⟩ := segment
    rw [hsegment] at h
    simp only at h ⊢
    split at h
    · cases h
    · rename_i hmoved
      rw [if_neg hmoved]
      rw [bind_fst] at h ⊢
      cases hv : (ix.process s txs next k asked).1 with
      | error f =>
        rw [hv] at h
        cases h
      | ok v =>
        obtain ⟨b, m'⟩ := v
        rw [hv] at h
        simp only at h
        cases hs : s.persist b with
        | error e =>
          rw [hs] at h
          cases h
        | ok s' =>
          obtain ⟨fits, rfl⟩ := Store.persist_ok.1 hs
          refine ⟨txs, next, b, rfl, hmoved, ⟨m', hv⟩, fits, ?_, ?_⟩ <;> simp only [hs] <;> rfl

theorem pass_keeps_or_applies (h : ix.offset p s = .ok o) : Always (ix.pass source p s) fun r =>
    (r.store = s ∧ r.progress.checkpoint = some o) ∨ ∃ m, r.result = .ok (.applied m) := by
  intro k before
  have hpass : Always (ix.pass source p s) _ := pass_ends
  rcases hpass k before with ⟨e, he, -⟩ | ⟨o', ho, hends⟩
  · cases h.symm.trans he
  · cases h.symm.trans ho
    generalize (ix.pass source p s k before).1 = r at hends ⊢
    cases hends with
    | applied => exact .inr ⟨_, rfl⟩
    | _ => exact .inl ⟨rfl, rfl⟩

end Indexer

end PoolLedger
