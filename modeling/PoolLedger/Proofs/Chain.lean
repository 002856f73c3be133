import PoolLedger.Proofs.Distinct
import PoolLedger.Proofs.Extraction
import PoolLedger.Proofs.Store.Record
import PoolLedger.Sync

/-! A chain and its events. Heights cut a chain into segments, and an event
carries the height of its segment in its key. So the events kept of adjacent
segments are together those kept of both as one. -/

namespace PoolLedger

/-- Transactions in the order of their heights and their places in the block. -/
structure Chain where
  transactions : List Transaction
  ordered : transactions.Pairwise fun a b =>
    a.height < b.height ∨ a.height = b.height ∧ a.index ≤ b.index

namespace Chain

def between (c : Chain) (first next : Height) : List Transaction :=
  c.transactions.filter fun tx => first ≤ tx.height && tx.height < next

theorem mem_between {c : Chain} {first next : Height} {tx : Transaction} :
    tx ∈ c.between first next ↔ tx ∈ c.transactions ∧ first ≤ tx.height ∧ tx.height < next := by
  simp [between]

theorem between_self (c : Chain) (h : Height) : c.between h h = [] := by
  rw [between, List.filter_eq_nil_iff]
  intro tx _ ht
  simp only [Bool.and_eq_true, decide_eq_true_eq, Ranged.le_def, Ranged.lt_def] at ht
  omega

theorem between_append (c : Chain) {first middle next : Height} (h₁ : first ≤ middle)
    (h₂ : middle ≤ next) :
    c.between first next = c.between first middle ++ c.between middle next := by
  obtain ⟨txs, hord⟩ := c
  simp only [between]
  simp only [Ranged.le_def, Ranged.lt_def] at *
  induction txs with
  | nil => rfl
  | cons tx rest ih =>
    obtain ⟨hhead, hrest⟩ := List.pairwise_cons.1 hord
    specialize ih hrest
    by_cases hm : tx.height.val < middle.val
    · by_cases hf : first.val ≤ tx.height.val
      · have hn : tx.height.val < next.val := by omega
        simp [hf, hm, hn, ih, Int.not_le.2 hm]
      · simp [hf, ih, Int.not_le.2 hm]
    · -- no later transaction lies below the middle either
      have hnone : rest.filter (fun tx =>
          decide (first.val ≤ tx.height.val) && decide (tx.height.val < middle.val)) = [] := by
        rw [List.filter_eq_nil_iff]
        intro t ht hlt
        simp only [Bool.and_eq_true, decide_eq_true_eq] at hlt
        have hle := hhead t ht
        simp only [Ranged.ext_iff] at hle
        omega
      rw [hnone, List.nil_append] at ih
      have hf : first.val ≤ tx.height.val := by omega
      simp only [List.filter_cons, hnone, ih]
      simp [hf, hm, Int.not_lt.1 hm]

/-- Transactions at one height have one time. -/
def SameTimes (c : Chain) : Prop :=
  ∀ a ∈ c.transactions, ∀ b ∈ c.transactions, a.height = b.height → a.timestamp = b.timestamp

end Chain

/-- Whatever segments a source delivers are those of the chain. -/
def SegmentSource.Honest (source : SegmentSource) (c : Chain) : Prop :=
  ∀ o segment, source o = .ok segment →
    o ≤ segment.next ∧ segment.transactions = c.between o segment.next

def Chain.upTo (c : Chain) (next : Height) : SegmentSource := fun o =>
  if o ≤ next then .ok ⟨c.between o next, next⟩ else .error (.chain "no such height")

theorem Chain.upTo_honest (c : Chain) (next : Height) : (c.upTo next).Honest c := by
  intro o segment h
  unfold upTo at h
  split at h
  · rename_i hle
    cases h
    exact ⟨hle, rfl⟩
  · cases h

theorem Ranged.lt_of_lt_of_le {lo hi : Int} {a b c : Ranged lo hi} (hab : a < b) (hbc : b ≤ c) :
    a < c := Int.lt_of_lt_of_le hab hbc

open Extraction (ofAll)

/-- Events with a table of their own. Their keys and heights come from the
transactions that hold them. -/
class ChainEvent (α : Type) [Keyed α] [Timed α] [Record α] where
  events : Extraction → List α
  height : α → Height
  height_setTimestamp (a : α) (t : Timestamp) : height (Timed.setTimestamp a t) = height a
  timestamp_setTimestamp (a : α) (t : Timestamp) : Timed.timestamp (Timed.setTimestamp a t) = t
  uniqueKey_setTimestamp (a : α) (t : Timestamp) :
    Keyed.uniqueKey (Timed.setTimestamp a t) = Keyed.uniqueKey a
  keyOf_stored (a : α) :
    (Record.table α).schema.keyOf (Record.stored a) = some (.text (Keyed.uniqueKey a))
  conflict : (Record.table α).schema.conflict = .ignore
  events_append (r : Registry) (k : Querier) (xs ys : List Transaction) :
    events (ofAll r k (xs ++ ys)) = events (ofAll r k xs) ++ events (ofAll r k ys)
  stamped (r : Registry) (k : Querier) (txs : List Transaction) :
    ∀ a ∈ events (ofAll r k txs), ∃ tx ∈ txs, height a = tx.height ∧
      Timed.timestamp a = tx.timestamp ∧ ∃ rest, Keyed.uniqueKey a = heightKey tx.height rest

instance : ChainEvent Swap where
  events := Extraction.swaps
  height := Swap.height
  height_setTimestamp _ _ := rfl
  timestamp_setTimestamp _ _ := rfl
  uniqueKey_setTimestamp _ _ := rfl
  keyOf_stored := keyOf_stored_swap
  conflict := rfl
  events_append _ := Extraction.swaps_ofAll_append
  stamped _ _ _ _ ha := Extraction.mem_events_ofAll (Extraction.mem_swaps.1 ha)

instance : ChainEvent LiquidityChange where
  events := Extraction.liquidity
  height := LiquidityChange.height
  height_setTimestamp _ _ := rfl
  timestamp_setTimestamp _ _ := rfl
  uniqueKey_setTimestamp _ _ := rfl
  keyOf_stored := keyOf_stored_liquidity
  conflict := rfl
  events_append _ := Extraction.liquidity_ofAll_append
  stamped _ _ _ _ ha := Extraction.mem_events_ofAll (Extraction.mem_liquidity.1 ha)

namespace ChainEvent

variable {α : Type} [Keyed α] [Timed α] [Record α] [ChainEvent α] {ix : Indexer} {k : Querier}
  {chain : Chain} {first middle next : Height} {xs ys : List α}

/-- The events of some transactions, one of each key, at the starts of their
buckets. -/
def kept (ix : Indexer) (k : Querier) (txs : List Transaction) : Option (List α) :=
  bucketed? ix.bucketWidth (keepLast (events (ofAll ix.registry k txs)))

theorem kept_nil (ix : Indexer) (k : Querier) : kept ix k [] = some ([] : List α) := by
  have he := events_append (α := α) ix.registry k [] []
  rw [List.append_nil, List.self_eq_append_left] at he
  rw [kept, he]
  rfl

structure Within (ix : Indexer) (chain : Chain) (first next : Height) (a : α) : Prop where
  first_le : first ≤ height a
  lt_next : height a < next
  key : ∃ rest, Keyed.uniqueKey a = heightKey (height a) rest
  source : ∃ tx ∈ chain.transactions, tx.height = height a ∧
    bucketStart? ix.bucketWidth tx.timestamp = some (Timed.timestamp a)

theorem within_of_bucketed {events : List α}
    (hevents : ∀ b ∈ events, ∃ tx ∈ chain.between first next, height b = tx.height ∧
      Timed.timestamp b = tx.timestamp ∧ ∃ rest, Keyed.uniqueKey b = heightKey tx.height rest)
    (h : bucketed? ix.bucketWidth (keepLast events) = some xs) {a : α} (ha : a ∈ xs) :
    Within ix chain first next a := by
  obtain ⟨b, hb, t, ht, rfl⟩ := (mem_bucketed h).1 ha
  obtain ⟨tx, htx, hh, hu, rest, hr⟩ := hevents b (mem_of_mem_keepLast hb)
  obtain ⟨htx, hf, hn⟩ := Chain.mem_between.1 htx
  refine ⟨?_, ?_, ⟨rest, ?_⟩, tx, htx, ?_, ?_⟩
  · rwa [height_setTimestamp, hh]
  · rwa [height_setTimestamp, hh]
  · rw [uniqueKey_setTimestamp, height_setTimestamp, hh, hr]
  · rw [height_setTimestamp, hh]
  · rw [timestamp_setTimestamp, ← hu, ht]

theorem Within.mono {a : α} {first' next' : Height} (h : Within ix chain first next a)
    (hfirst : first' ≤ first) (hnext : next ≤ next') : Within ix chain first' next' a :=
  ⟨Int.le_trans hfirst h.first_le, Ranged.lt_of_lt_of_le h.lt_next hnext, h.key, h.source⟩

theorem uniqueKey_ne_of_within {a b : α} (ha : Within ix chain first middle a)
    (hb : Within ix chain middle next b) : Keyed.uniqueKey a ≠ Keyed.uniqueKey b := by
  obtain ⟨x, hx⟩ := ha.key
  obtain ⟨y, hy⟩ := hb.key
  rw [hx, hy]
  exact heightKey_ne_of_lt (Ranged.lt_of_lt_of_le ha.lt_next hb.first_le)

theorem kept_append (h₁ : first ≤ middle) (h₂ : middle ≤ next)
    (hx : kept ix k (chain.between first middle) = some xs)
    (hy : kept ix k (chain.between middle next) = some ys) :
    kept ix k (chain.between first next) = some (xs ++ ys) := by
  rw [kept, chain.between_append h₁ h₂, events_append, keepLast_append_of_disjoint]
  · exact bucketed_append hx hy
  · intro a ha b hb
    obtain ⟨tx, htx, -, -, x, hx⟩ := stamped ix.registry k _ a ha
    obtain ⟨ty, hty, -, -, y, hy⟩ := stamped ix.registry k _ b hb
    rw [hx, hy]
    exact heightKey_ne_of_lt
      (Ranged.lt_of_lt_of_le (Chain.mem_between.1 htx).2.2 (Chain.mem_between.1 hty).2.1)

theorem bucketed_pairwise {width : Timestamp} {events : List α}
    (h : bucketed? width (keepLast events) = some xs) :
    xs.Pairwise fun a b => Keyed.uniqueKey a ≠ Keyed.uniqueKey b := by
  have hk := keepLast_pairwise events
  have hm : xs.map Keyed.uniqueKey = (keepLast events).map Keyed.uniqueKey := by
    refine Traverse.map_of_mapM_some (fun a b hb => ?_) h
    obtain ⟨t, -, rfl⟩ := Option.map_eq_some_iff.1 hb
    exact uniqueKey_setTimestamp a t
  rw [← List.pairwise_map (f := Keyed.uniqueKey) (R := (· ≠ ·))] at hk ⊢
  rwa [hm]

end ChainEvent

end PoolLedger
