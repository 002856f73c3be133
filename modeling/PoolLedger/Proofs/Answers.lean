import PoolLedger.Proofs.Extraction

/-! What answers decide. Of an extraction they decide the reserves of a pool and the fee
that is counted from them. All else is what a querier finds that gives no answer. -/

namespace PoolLedger

open Asking

def Querier.silent : Querier := .fixed fun _ => .error (.query "")

theorem Querier.silent_steady : Querier.silent.Steady := fixed_steady _

def LiquidityChange.withoutPool (e : LiquidityChange) : LiquidityChange :=
  { e with baseReserve := 0, quoteReserve := 0, protocolFee := 0 }

def Event.withoutPool : Event → Event
  | .swap s => .swap s
  | .liquidity e => .liquidity e.withoutPool
  | .staking e => .staking e

theorem Reserves.fee_none (p : Pair) (share : Amount) : Reserves.none.fee p share = 0 := by
  have hrefund (reserve : Amount) : Reserves.none.refundOf reserve share = 0 := if_pos rfl
  have htax : nativeTax 0 = 0 := by decide
  rw [fee, hrefund, hrefund, htax, ite_self, if_neg fun h => h.2 rfl]
  rfl

namespace Extraction

variable {k : Querier} {r : Registry} {tx : Transaction} {before : List Query}

def withoutPool (x : Extraction) : Extraction := ⟨x.events.map Event.withoutPool, x.skipped⟩

theorem withoutPool_concat (parts : List Extraction) :
    (concat parts).withoutPool = concat (parts.map withoutPool) := by
  simp only [withoutPool, concat, List.map_flatMap, List.flatMap_map]

theorem withoutPool_liquidityOf (creator : String) (msg : Nat) (op : LiquidityOp) (pair : Pair)
    (address : String) (base quote share : Amount) (pool : Reserves) :
    (liquidityOf tx creator msg op pair address base quote share pool).withoutPool =
      liquidityOf tx creator msg op pair address base quote share .none := by
  simp only [LiquidityChange.withoutPool, liquidityOf, Reserves.fee_none]
  rfl

def Blind (p : Asking Extraction) : Prop := Always p fun x => x.withoutPool = value .silent p

theorem blind_pure {x : Extraction} (h : x.withoutPool = x) : Blind (pure x) := always_pure h

theorem ofHop_withoutPool (sender : String) (msg : Nat) (hop : SwapHop) :
    (ofHop r tx sender msg hop).withoutPool = ofHop r tx sender msg hop := by
  unfold ofHop
  split
  · rfl
  · rfl

theorem ofSwaps_withoutPool (sender : String) (msg : Nat) (entry : LogEntry) :
    (ofSwaps r tx sender msg entry).withoutPool = ofSwaps r tx sender msg entry := by
  unfold ofSwaps
  split
  · rw [withoutPool_concat, List.map_map]
    exact congrArg concat (List.map_congr_left fun hop _ => ofHop_withoutPool sender msg hop)
  · rfl
  · rfl

theorem ofGroup_blind (creator : String) (msg : Nat) (op : LiquidityOp) (sent : Option Amount)
    (g : LiquidityGroup) : Blind (ofGroup r tx creator msg op sent g) := by
  unfold ofGroup
  split
  · exact blind_pure rfl
  · rename_i pair orientation _
    cases orientation <;>
    · refine Always.bind (P := fun _ => True) (fun _ _ => trivial) fun pool _ => always_pure ?_
      exact congrArg (fun e => event (.liquidity e)) (withoutPool_liquidityOf ..)

theorem concat_mapM_blind {β : Type} {f : β → Asking Extraction} {xs : List β}
    (hblind : ∀ x ∈ xs, Blind (f x)) (hsettled : ∀ x ∈ xs, Settled .silent (f x)) :
    Blind (do return concat (← xs.mapM f)) := by
  intro k before
  have hparts : List.Forall₂ (fun x part => part.withoutPool = value .silent (f x)) xs
      (xs.mapM f k before).1 :=
    forall₂_mapM (fun x hx before => hblind x hx k before) before
  rw [value_bind_pure, (Settled.mapM xs hsettled).2]
  change (concat (xs.mapM f k before).1).withoutPool = _
  rw [withoutPool_concat]
  clear hblind hsettled
  congr 1
  generalize (xs.mapM f k before).1 = parts at hparts
  induction hparts with
  | nil => rfl
  | cons h _ ih => rw [List.map_cons, List.map_cons, h, ih]

theorem parts_blind (r : Registry) (tx : Transaction) :
    HoldsOfParts r tx fun p => Blind p ∧ Settled .silent p where
  skip _ := ⟨blind_pure rfl, settled_pure _⟩
  empty := ⟨blind_pure rfl, settled_pure _⟩
  staking _ _ _ := ⟨blind_pure rfl, settled_pure _⟩
  swaps sender msg entry := ⟨blind_pure (ofSwaps_withoutPool sender msg entry), settled_pure _⟩
  group creator msg op sent g :=
    ⟨ofGroup_blind creator msg op sent g,
      ofGroup_settled Querier.silent_steady creator msg op sent g⟩
  together f xs h :=
    ⟨concat_mapM_blind (fun x hx => (h x hx).1) fun x hx => (h x hx).2,
      (parts_settled Querier.silent_steady r tx).together f xs fun x hx => (h x hx).2⟩

theorem ofTransaction_blind (r : Registry) (tx : Transaction) : Blind (ofTransaction r tx) :=
  (parts_blind r tx).ofTransaction.1

theorem always_withoutPool (r : Registry) (txs : List Transaction) :
    Always (txs.mapM (ofTransaction r)) fun parts =>
      (concat parts).withoutPool = ofAll r .silent txs := by
  intro k before
  -- the silent querier says the same whatever was asked before, so the parts can be told one by one
  have hsettled (tx : Transaction) : Settled .silent (ofTransaction r tx) :=
    ofTransaction_settled Querier.silent_steady r tx
  have hblind : Blind (do return concat (← txs.mapM (ofTransaction r))) :=
    concat_mapM_blind (fun tx _ => ofTransaction_blind r tx) fun tx _ => hsettled tx
  have hvalue := hblind k before
  rwa [value_bind_pure, (Settled.mapM txs fun tx _ => hsettled tx).2] at hvalue

theorem withoutPool_ofAll (r : Registry) (k : Querier) (txs : List Transaction) :
    (ofAll r k txs).withoutPool = ofAll r .silent txs := by
  rw [ofAll, withoutPool_concat, List.map_map, ofAll]
  exact congrArg concat (List.map_congr_left fun tx _ => (ofTransaction_blind r tx).value k)

theorem liquidity_withoutPool (x : Extraction) :
    x.withoutPool.liquidity = x.liquidity.map LiquidityChange.withoutPool := by
  rw [liquidity, withoutPool, List.filterMap_map, liquidity, List.map_filterMap]
  refine List.filterMap_congr fun e _ => ?_
  cases e <;> rfl

end Extraction

end PoolLedger
