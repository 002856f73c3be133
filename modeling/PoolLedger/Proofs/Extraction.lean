import PoolLedger.Extraction
import PoolLedger.Proofs.Asking
import PoolLedger.Proofs.Keys

/-! Events carry the height, the time and the key of the transaction they come
from. Which swaps there are does not depend on the answers to questions. Under a
steady querier the events of a transaction are its own: they do not depend on
the transactions before it. -/

namespace PoolLedger

open Asking

inductive Event.From (r : Registry) (tx : Transaction) : Event → Prop
  | swap (sender : String) (msg : Nat) (hop : SwapHop) {pair : Pair} {direction : Direction}
    (traded : r.direction? hop.offerAsset hop.askAsset = some (pair, direction)) :
    From r tx (.swap (Extraction.swapOf tx sender msg hop pair direction))
  | liquidity (creator : String) (msg : Nat) (op : LiquidityOp) (pair : Pair) (address : String)
    (base quote share : Amount) (pool : Reserves) : From r tx
      (.liquidity (Extraction.liquidityOf tx creator msg op pair address base quote share pool))
  | staking (action : StakingAction) (token : String) (amount : Amount) :
    From r tx (.staking ⟨action, token, amount, tx.hash, tx.height⟩)

def Event.StampedBy (tx : Transaction) : Event → Prop
  | .swap s => s.height = tx.height ∧ s.timestamp = tx.timestamp ∧
      ∃ rest, s.uniqueKey = heightKey tx.height rest
  | .liquidity e => e.height = tx.height ∧ e.timestamp = tx.timestamp ∧
      ∃ rest, e.uniqueKey = heightKey tx.height rest
  | .staking e => e.height = tx.height

theorem Event.From.stamped {r : Registry} {tx : Transaction} {e : Event} (h : e.From r tx) :
    e.StampedBy tx := by
  cases h with
  | swap => exact ⟨rfl, rfl, _, eventKey_eq_heightKey ..⟩
  | liquidity => exact ⟨rfl, rfl, _, eventKey_eq_heightKey ..⟩
  | staking => rfl

namespace Extraction

variable {k : Querier} {r : Registry} {tx : Transaction}

/-- Holds of each thing that a transaction can give, and of things put together. -/
structure HoldsOfParts (r : Registry) (tx : Transaction) (P : Asking Extraction → Prop) :
    Prop where
  skip (s : Skip) : P (pure (Extraction.skip s))
  empty : P (pure Extraction.empty)
  staking (action : StakingAction) (token : String) (amount : Amount) :
    P (pure (ofStaking tx action token amount))
  swaps (sender : String) (msg : Nat) (entry : LogEntry) :
    P (pure (ofSwaps r tx sender msg entry))
  group (creator : String) (msg : Nat) (op : LiquidityOp) (sent : Option Amount)
    (g : LiquidityGroup) : P (ofGroup r tx creator msg op sent g)
  together {β : Type} (f : β → Asking Extraction) (xs : List β) (h : ∀ x ∈ xs, P (f x)) :
    P (do return concat (← xs.mapM f))

namespace HoldsOfParts

variable {P : Asking Extraction → Prop}

theorem ofLiquidity (h : HoldsOfParts r tx P) (creator : String) (msg : Nat) (op : LiquidityOp)
    (sent : Option Amount) (entry : LogEntry) :
    P (Extraction.ofLiquidity r tx creator msg op sent entry) := by
  unfold Extraction.ofLiquidity
  split
  · exact h.skip _
  · exact h.skip _
  · exact h.together _ _ fun g _ => h.group creator msg op sent g

theorem ofMessage (h : HoldsOfParts r tx P) (entry : Option LogEntry) (msg : Nat)
    (e : Execution) : P (Extraction.ofMessage r tx entry msg e) := by
  unfold Extraction.ofMessage
  split
  · exact h.skip _
  · exact h.empty
  · exact h.staking ..
  · exact h.staking ..
  · exact h.staking ..
  · split
    · exact h.swaps ..
    · exact h.skip _
  · split
    · exact h.ofLiquidity ..
    · exact h.skip _
  · split
    · exact h.ofLiquidity ..
    · exact h.skip _

theorem ofTransaction (h : HoldsOfParts r tx P) : P (Extraction.ofTransaction r tx) := by
  unfold Extraction.ofTransaction
  split
  · exact h.skip _
  · split
    · exact h.skip _
    · split
      · exact h.skip _
      · exact h.together _ _ fun m _ => h.ofMessage _ m.1 m.2

end HoldsOfParts

def From (r : Registry) (tx : Transaction) (x : Extraction) : Prop := ∀ e ∈ x.events, e.From r tx

theorem from_skip (s : Skip) : From r tx (skip s) := by simp [From, skip]

theorem from_empty : From r tx empty := by simp [From, empty]

theorem from_event {e : Event} (h : e.From r tx) : From r tx (event e) := by
  simpa [From, event] using h

theorem from_concat {parts : List Extraction} (h : ∀ x ∈ parts, From r tx x) :
    From r tx (concat parts) := by
  intro e he
  obtain ⟨x, hx, hex⟩ := List.mem_flatMap.1 he
  exact h x hx e hex

theorem ofHop_from (sender : String) (msg : Nat) (hop : SwapHop) :
    From r tx (ofHop r tx sender msg hop) := by
  unfold ofHop
  split
  · rename_i traded
    exact from_event (.swap sender msg hop traded)
  · exact from_skip _

theorem ofSwaps_from (sender : String) (msg : Nat) (entry : LogEntry) :
    From r tx (ofSwaps r tx sender msg entry) := by
  unfold ofSwaps
  split
  · apply from_concat
    intro x hx
    obtain ⟨hop, -, rfl⟩ := List.mem_map.1 hx
    exact ofHop_from sender msg hop
  · exact from_skip _
  · exact from_skip _

theorem ofGroup_from (creator : String) (msg : Nat) (op : LiquidityOp) (sent : Option Amount)
    (g : LiquidityGroup) : Always (ofGroup r tx creator msg op sent g) (From r tx) := by
  unfold ofGroup
  split
  · exact always_pure (from_skip _)
  · refine Always.bind (P := fun _ => True) (fun _ _ => trivial) fun pool _ => ?_
    exact always_pure (from_event (.liquidity ..))

theorem parts_from (r : Registry) (tx : Transaction) :
    HoldsOfParts r tx fun p => Always p (From r tx) where
  skip _ := always_pure (from_skip _)
  empty := always_pure from_empty
  staking _ _ _ := always_pure (from_event (.staking ..))
  swaps sender msg entry := always_pure (ofSwaps_from sender msg entry)
  group := ofGroup_from
  together _ xs h := (Always.mapM xs h).bind fun _ hparts => always_pure (from_concat hparts)

theorem ofTransaction_from (r : Registry) (tx : Transaction) :
    Always (ofTransaction r tx) (From r tx) :=
  (parts_from r tx).ofTransaction

section Steady

variable (hk : k.Steady)
include hk

theorem reservesAt_settled (pair : Pair) (address : String) (height : Height) :
    Settled k (reservesAt pair address height) := by
  refine (settled_ask hk _).bind ?_
  split
  · exact settled_pure _
  · exact settled_pure _

theorem ofGroup_settled (creator : String) (msg : Nat) (op : LiquidityOp) (sent : Option Amount)
    (g : LiquidityGroup) : Settled k (ofGroup r tx creator msg op sent g) := by
  unfold ofGroup
  split
  · exact settled_pure _
  · exact (reservesAt_settled hk _ _ _).bind (settled_pure _)

theorem parts_settled (r : Registry) (tx : Transaction) : HoldsOfParts r tx (Settled k) where
  skip _ := settled_pure _
  empty := settled_pure _
  staking _ _ _ := settled_pure _
  swaps _ _ _ := settled_pure _
  group := ofGroup_settled hk
  together _ xs h := (Settled.mapM xs h).1.bind (settled_pure _)

theorem ofMessage_settled (entry : Option LogEntry) (msg : Nat) (e : Execution) :
    Settled k (ofMessage r tx entry msg e) :=
  (parts_settled hk r tx).ofMessage entry msg e

theorem ofTransaction_settled (r : Registry) (tx : Transaction) :
    Settled k (ofTransaction r tx) :=
  (parts_settled hk r tx).ofTransaction

end Steady

def ofAll (r : Registry) (k : Querier) (txs : List Transaction) : Extraction :=
  concat (txs.map fun tx => value k (ofTransaction r tx))

theorem swaps_concat (parts : List Extraction) : (concat parts).swaps = parts.flatMap swaps := by
  rw [swaps, concat, List.filterMap_flatMap]
  rfl

theorem liquidity_concat (parts : List Extraction) :
    (concat parts).liquidity = parts.flatMap liquidity := by
  rw [liquidity, concat, List.filterMap_flatMap]
  rfl

theorem swaps_ofAll_append (k : Querier) (xs ys : List Transaction) :
    (ofAll r k (xs ++ ys)).swaps = (ofAll r k xs).swaps ++ (ofAll r k ys).swaps := by
  simp only [ofAll, swaps_concat, List.map_append, List.flatMap_append]

theorem liquidity_ofAll_append (k : Querier) (xs ys : List Transaction) :
    (ofAll r k (xs ++ ys)).liquidity = (ofAll r k xs).liquidity ++ (ofAll r k ys).liquidity := by
  simp only [ofAll, liquidity_concat, List.map_append, List.flatMap_append]

theorem mem_swaps {x : Extraction} {s : Swap} : s ∈ x.swaps ↔ .swap s ∈ x.events := by
  simp only [swaps, List.mem_filterMap]
  constructor
  · rintro ⟨e, he, hs⟩
    split at hs
    · rwa [← Option.some.inj hs]
    · cases hs
  · exact fun h => ⟨_, h, rfl⟩

theorem mem_liquidity {x : Extraction} {e : LiquidityChange} :
    e ∈ x.liquidity ↔ .liquidity e ∈ x.events := by
  simp only [liquidity, List.mem_filterMap]
  constructor
  · rintro ⟨e, he, hs⟩
    split at hs
    · rwa [← Option.some.inj hs]
    · cases hs
  · exact fun h => ⟨_, h, rfl⟩

theorem mem_events_ofAll {txs : List Transaction} {e : Event} (h : e ∈ (ofAll r k txs).events) :
    ∃ tx ∈ txs, e.StampedBy tx := by
  obtain ⟨x, hx, he⟩ := List.mem_flatMap.1 h
  obtain ⟨tx, htx, rfl⟩ := List.mem_map.1 hx
  exact ⟨tx, htx, ((ofTransaction_from r tx).value k e he).stamped⟩

def SwapsSettled (p : Asking Extraction) : Prop :=
  ∀ k before k', (p k before).1.swaps = (value k' p).swaps

theorem swapsSettled_of_always {p : Asking Extraction} {found : List Swap}
    (h : Always p fun x => x.swaps = found) : SwapsSettled p :=
  fun k before k' => (h k before).trans (h k' []).symm

theorem SwapsSettled.mapM {β : Type} {f : β → Asking Extraction} (xs : List β)
    (hf : ∀ x ∈ xs, SwapsSettled (f x)) (k : Querier) :
    Always (xs.mapM f) fun parts =>
      (concat parts).swaps = xs.flatMap fun x => (value k (f x)).swaps := by
  induction xs with
  | nil => exact always_pure rfl
  | cons x xs ih =>
    rw [List.mapM_cons]
    have hx : Always (f x) fun part => part.swaps = (value k (f x)).swaps :=
      fun k' before => hf x List.mem_cons_self k' before k
    refine hx.bind fun part hpart => ?_
    refine (ih fun y hy => hf y (List.mem_cons_of_mem x hy)).bind fun parts hparts => ?_
    rw [swaps_concat] at hparts
    exact always_pure (by rw [swaps_concat, List.flatMap_cons, hpart, hparts, List.flatMap_cons])

theorem ofGroup_swaps (creator : String) (msg : Nat) (op : LiquidityOp) (sent : Option Amount)
    (g : LiquidityGroup) : Always (ofGroup r tx creator msg op sent g) fun x => x.swaps = [] := by
  unfold ofGroup
  split
  · exact always_pure rfl
  · exact Always.bind (P := fun _ => True) (fun _ _ => trivial) fun pool _ => always_pure rfl

theorem ofLiquidity_swaps (creator : String) (msg : Nat) (op : LiquidityOp)
    (sent : Option Amount) (entry : LogEntry) :
    Always (ofLiquidity r tx creator msg op sent entry) fun x => x.swaps = [] := by
  unfold ofLiquidity
  split
  · exact always_pure rfl
  · exact always_pure rfl
  · refine (Always.mapM _ fun g _ => ofGroup_swaps creator msg op sent g).bind fun xs hxs => ?_
    exact always_pure (by rw [swaps_concat, List.flatMap_eq_nil_iff.2 hxs])

theorem parts_swapsSettled (r : Registry) (tx : Transaction) :
    HoldsOfParts r tx SwapsSettled where
  skip _ := swapsSettled_of_always (always_pure rfl)
  empty := swapsSettled_of_always (always_pure rfl)
  staking _ _ _ := swapsSettled_of_always (always_pure rfl)
  swaps _ _ _ := swapsSettled_of_always (always_pure rfl)
  group creator msg op sent g := swapsSettled_of_always (ofGroup_swaps creator msg op sent g)
  together _ xs h := swapsSettled_of_always
    ((SwapsSettled.mapM xs h (.fixed fun _ => .error (.query ""))).bind
      fun _ hparts => always_pure hparts)

theorem ofMessage_swapsSettled (entry : Option LogEntry) (msg : Nat) (e : Execution) :
    SwapsSettled (ofMessage r tx entry msg e) :=
  (parts_swapsSettled r tx).ofMessage entry msg e

theorem ofTransaction_swapsSettled (r : Registry) (tx : Transaction) :
    SwapsSettled (ofTransaction r tx) :=
  (parts_swapsSettled r tx).ofTransaction

/-- What some transactions give, whoever answered. -/
structure Of (r : Registry) (txs : List Transaction) (x : Extraction) : Prop where
  events : ∀ e ∈ x.events, ∃ tx ∈ txs, e.From r tx
  swaps : ∀ k, x.swaps = (ofAll r k txs).swaps

theorem always_of (r : Registry) (txs : List Transaction) :
    Always (txs.mapM (ofTransaction r)) fun parts => Of r txs (concat parts) := by
  have hfrom : Always (txs.mapM (ofTransaction r)) fun parts =>
      ∀ part ∈ parts, ∃ tx ∈ txs, From r tx part :=
    Always.mapM txs fun tx htx k before => ⟨tx, htx, ofTransaction_from r tx k before⟩
  intro k before
  refine ⟨fun e he => ?_, fun k' => ?_⟩
  · obtain ⟨part, hpart, hpe⟩ := List.mem_flatMap.1 he
    obtain ⟨tx, htx, hpart⟩ := hfrom k before part hpart
    exact ⟨tx, htx, hpart e hpe⟩
  · rw [SwapsSettled.mapM txs (fun tx _ => ofTransaction_swapsSettled r tx) k' k before, ofAll,
      swaps_concat, List.flatMap_map]

end Extraction

end PoolLedger
