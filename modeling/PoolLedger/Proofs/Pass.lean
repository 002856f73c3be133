import PoolLedger.Proofs.Extraction
import PoolLedger.Proofs.Seeds
import PoolLedger.Proofs.Store.Persist
import PoolLedger.Proofs.Yield
import PoolLedger.Sync

/-! A pass under a steady querier. It stores all that its segment comes to, with
the start of the next one, or it leaves the store as it was. -/

namespace PoolLedger

open Asking

namespace Indexer

/-- What some transactions come to over a store, all before the next segment. -/
structure Derives (ix : Indexer) (k : Querier) (s : Store) (txs : List Transaction)
    (next : Height) (b : Batch) : Prop where
  swaps : bucketed? ix.bucketWidth (keepLast (Extraction.ofAll ix.registry k txs).swaps) =
    some b.swaps
  liquidity : bucketed? ix.bucketWidth (keepLast (Extraction.ofAll ix.registry k txs).liquidity) =
    some b.liquidity
  snapshots : ∃ seeds, value k (Snapshot.resolveSeeds ix.registry s.latestReserveBefore
      (Snapshot.minHeights ix.registry b.swaps b.liquidity)) = .ok seeds ∧
    b.snapshots = Snapshot.accumulate ix.registry seeds b.swaps b.liquidity
  candles : rebuildCandles s b.swaps = .ok b.candles
  aprs : value k (Apr.refresh ix.registry s.latestApr
      (AprTriggers.collect ix.registry b.liquidity (Extraction.ofAll ix.registry k txs).staking)
      (moment txs next).1 (moment txs next).2) = .ok b.aprs
  checkpoint : b.checkpoint = next

variable {ix : Indexer} {k : Querier} {s : Store} {txs : List Transaction} {next : Height}

def Yields (v : Except Fault (Batch × Summary)) (b : Batch) : Prop := ∃ m, v = .ok (b, m)

theorem not_yields_error (f : Fault) (b : Batch) : ¬ Yields (.error f) b := by
  rintro ⟨m, h⟩
  cases h

theorem derive_spec (hk : k.Steady) :
    Settled k (ix.derive s txs next (Extraction.ofAll ix.registry k txs)) ∧ ∀ b,
      Yields (value k (ix.derive s txs next (Extraction.ofAll ix.registry k txs))) b ↔
        ix.Derives k s txs next b := by
  have failed {f : Fault} (h : ∀ b, ¬ ix.Derives k s txs next b) (b : Batch) :
      Yields (.error f) b ↔ ix.Derives k s txs next b :=
    iff_of_false (not_yields_error f b) (h b)
  -- where a step fails, the part of the batch that it makes cannot be derived
  unfold derive
  split
  · rename_i swaps liquidity hw hl
    have records {b : Batch} (h : ix.Derives k s txs next b) :
        b.swaps = swaps ∧ b.liquidity = liquidity := by
      have h₁ := h.swaps
      have h₂ := h.liquidity
      rw [hw, Option.some.injEq] at h₁
      rw [hl, Option.some.injEq] at h₂
      exact ⟨h₁.symm, h₂.symm⟩
    refine Settled.bind_and (P := fun v => ∀ b, Yields v b ↔ ix.Derives k s txs next b)
      (Snapshot.resolveSeeds_settled hk) ?_
    split
    · rename_i e he
      refine ⟨settled_pure _, failed fun b h => ?_⟩
      obtain ⟨rfl, rfl⟩ := records h
      obtain ⟨seeds, hs, -⟩ := h.snapshots
      rw [he] at hs
      cases hs
    · rename_i seeds hs
      extract_lets snapshots
      split
      · rename_i e he
        refine ⟨settled_pure _, failed fun b h => ?_⟩
        obtain ⟨rfl, rfl⟩ := records h
        have hc := h.candles
        rw [he] at hc
        cases hc
      · rename_i candles hc
        refine Settled.bind_and (P := fun v => ∀ b, Yields v b ↔ ix.Derives k s txs next b)
          (Apr.refresh_settled hk _ _ _ _ _) ?_
        split
        · rename_i e he
          refine ⟨settled_pure _, failed fun b h => ?_⟩
          obtain ⟨rfl, rfl⟩ := records h
          cases he.symm.trans h.aprs
        · rename_i aprs ha
          refine ⟨settled_pure _, fun b => ?_⟩
          constructor
          · rintro ⟨m, hm⟩
            cases hm
            exact ⟨hw, hl, ⟨seeds, hs, rfl⟩, hc, ha, rfl⟩
          · intro h
            obtain ⟨rfl, rfl⟩ := records h
            obtain ⟨seeds', hs', hb⟩ := h.snapshots
            have hs := hs.symm.trans hs'
            have hc := hc.symm.trans h.candles
            have ha := ha.symm.trans h.aprs
            cases hs
            cases hc
            cases ha
            have hn := h.checkpoint
            obtain ⟨_, _, _, _, _, _⟩ := b
            simp only at hb hn
            subst hb hn
            exact ⟨_, rfl⟩
  · rename_i hnone
    exact ⟨settled_pure _, failed fun b h => hnone _ _ h.swaps h.liquidity⟩

theorem process_spec (hk : k.Steady) :
    Settled k (ix.process s txs next) ∧ ∀ b,
      Yields (value k (ix.process s txs next)) b ↔ ix.Derives k s txs next b := by
  obtain ⟨hs, hv⟩ := Settled.mapM (f := Extraction.ofTransaction ix.registry) txs fun tx _ =>
    Extraction.ofTransaction_settled hk ix.registry tx
  unfold process
  refine Settled.bind_and (P := fun v => ∀ b, Yields v b ↔ ix.Derives k s txs next b) hs ?_
  rw [hv]
  exact derive_spec hk

def offset (ix : Indexer) (p : Progress) (s : Store) : Except IndexerError Height :=
  match p.checkpoint with
  | some o => .ok o
  | none => ix.start s

/-- The segment at a height is taken into a store as a batch. -/
structure Takes (ix : Indexer) (k : Querier) (source : SegmentSource) (o : Height) (s : Store)
    (b : Batch) : Prop where
  derived : ∃ txs, source o = .ok ⟨txs, b.checkpoint⟩ ∧ ix.Derives k s txs b.checkpoint b
  moved : b.checkpoint ≠ o
  fits : b.Fits

variable {source : SegmentSource} {o : Height} {p : Progress}

inductive Pass.Cases (ix : Indexer) (k : Querier) (source : SegmentSource) (o : Height)
    (s : Store) (r : Pass) : Prop
  | took (b : Batch) (taken : ix.Takes k source o s b) (store : r.store = s.after b)
      (checkpoint : r.progress.checkpoint = some b.checkpoint)
      (applied : ∃ m, r.result = .ok (.applied m))
  | kept (none_taken : ∀ b, ¬ ix.Takes k source o s b) (store : r.store = s)
      (checkpoint : r.progress.checkpoint = some o) (applied : ∀ m, r.result ≠ .ok (.applied m))

theorem passFrom_cases (hk : k.Steady) :
    Pass.Cases ix k source o s (value k (ix.passFrom source o s)) := by
  -- a segment that fails on the way is taken in as no batch, for that would say how far it came
  unfold passFrom
  cases hseg : source o with
  | error e =>
    refine .kept (fun b hb => ?_) rfl rfl (by intro m h; cases h)
    obtain ⟨txs, ht, -⟩ := hb.derived
    rw [hseg] at ht
    cases ht
  | ok segment =>
    obtain ⟨txs, next⟩ := segment
    simp only
    split
    · rename_i hn
      refine .kept (fun b hb => ?_) rfl rfl (by intro m h; cases h)
      obtain ⟨txs', ht, -⟩ := hb.derived
      rw [hseg] at ht
      cases ht
      exact hb.moved hn
    · rename_i hn
      have hspec : Settled k (ix.process s txs next) ∧ ∀ b,
          Yields (value k (ix.process s txs next)) b ↔ ix.Derives k s txs next b := process_spec hk
      obtain ⟨hset, hyields⟩ := hspec
      refine (Settled.bind_and (P := Pass.Cases ix k source o s) hset ?_).2
      have taken {b : Batch} (hb : ix.Takes k source o s b) :
          Yields (value k (ix.process s txs next)) b ∧ b.checkpoint = next := by
        obtain ⟨txs', ht, hd⟩ := hb.derived
        rw [hseg] at ht
        cases ht
        exact ⟨(hyields b).2 hd, rfl⟩
      split
      · rename_i f hf
        refine ⟨settled_pure _, .kept (fun b hb => ?_) rfl rfl (by intro m h; cases h)⟩
        rw [hf] at taken
        exact not_yields_error f b (taken hb).1
      · rename_i batch m hm
        have hd := (hyields batch).1 ⟨m, hm⟩
        split
        · rename_i e he
          refine ⟨settled_pure _, .kept (fun b hb => ?_) rfl rfl (by intro m h; cases h)⟩
          obtain ⟨m', hm'⟩ := (taken hb).1
          rw [hm] at hm'
          cases hm'
          rw [Store.persist_ok.2 ⟨hb.fits, rfl⟩] at he
          cases he
        · rename_i s' hs'
          obtain ⟨hfits, rfl⟩ := Store.persist_ok.1 hs'
          refine ⟨settled_pure _, .took batch ⟨⟨txs, ?_, ?_⟩, ?_, hfits⟩ rfl ?_ ⟨_, rfl⟩⟩
          · rw [hd.checkpoint, hseg]
          · rwa [hd.checkpoint]
          · rwa [hd.checkpoint]
          · rw [hd.checkpoint]
            rfl

theorem pass_of_offset (h : ix.offset p s = .ok o) : ix.pass source p s = ix.passFrom source o s := by
  unfold offset at h
  unfold pass
  split <;> simp_all

end Indexer

end PoolLedger
