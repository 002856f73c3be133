import Mathlib.Data.List.Nodup
import PoolLedger.Proofs.Answers
import PoolLedger.Proofs.Reporting

/-! Messages of a transaction are extracted one by one. What a message comes to depends on
itself and on its entry of the log alone, and every message that means something comes
to an event or to a reported skip. -/

namespace PoolLedger

open Asking

namespace Log

variable {log : List LogEntry} {msg : Nat}

end Log

namespace Message

def staking? (tx : Transaction) : Message → Option StakingChange
  | .bond token amount => some ⟨.bond, token, amount, tx.hash, tx.height⟩
  | .unbond token amount => some ⟨.unbond, token, amount, tx.hash, tx.height⟩
  | .updateRewards token => some ⟨.updateRewards, token, 0, tx.hash, tx.height⟩
  | _ => none

def liquidity? : Message → Option (LiquidityOp × Option Amount)
  | .provideLiquidity => some (.provide, none)
  | .withdrawLiquidity _ share => some (.withdraw, some share)
  | _ => none

end Message

def HopFault.skip (msg : Nat) : HopFault → Skip
  | .missing => .missingSwapAttributes msg
  | .malformed => .malformedSwapAttributes msg

theorem LogEntry.swapHops_ne_nil {entry : LogEntry} {hops : List SwapHop}
    (h : entry.swapHops = .ok hops) : hops ≠ [] := by
  rintro rfl
  unfold swapHops at h
  extract_lets attributes n at h
  split at h
  · cases h
  · split at h
    · cases h
    · rename_i hn
      split at h
      · rename_i hs hread
        cases h
        have hlength := congrArg List.length (Traverse.mapM_eq_some.1 hread)
        simp only [List.length_map, List.length_range, List.length_nil] at hlength
        exact hn hlength
      · cases h

namespace LiquidityGroup

def contract (g : LiquidityGroup) (pair : Pair) : String :=
  if g.pairAddress = "" then pair.address else g.pairAddress

def amounts (g : LiquidityGroup) : Orientation → Amount × Amount
  | .canonical => (g.first.1, g.second.1)
  | .reversed => (g.second.1, g.first.1)

end LiquidityGroup

namespace Extraction

variable {k : Querier} {r : Registry} {tx : Transaction} {msg : Nat} {e : Execution}
  {entry : Option LogEntry} {x : Extraction}

/-- A hop comes to a swap on the pair of its denoms, or to the report that there is none. -/
inductive Hopped (r : Registry) (tx : Transaction) (sender : String) (msg : Nat) (hop : SwapHop) :
    Extraction → Prop
  | swap {pair : Pair} {o : Orientation}
    (found : r.find? hop.offerAsset hop.askAsset = some (pair, o)) :
    Hopped r tx sender msg hop (event (.swap (swapOf tx sender msg hop pair o.direction)))
  | unmatched (none : r.find? hop.offerAsset hop.askAsset = none) :
    Hopped r tx sender msg hop (skip (.noMatchingPair hop.offerAsset hop.askAsset))

inductive Grouped (r : Registry) (tx : Transaction) (creator : String) (msg : Nat)
    (op : LiquidityOp) (sent : Option Amount) (g : LiquidityGroup) : Extraction → Prop
  | change {pair : Pair} {o : Orientation} (pool : Reserves)
    (found : r.find? g.first.2 g.second.2 = some (pair, o)) :
    Grouped r tx creator msg op sent g (event (.liquidity (liquidityOf tx creator msg op pair
      (g.contract pair) (g.amounts o).1 (g.amounts o).2 ((g.share.or sent).getD 0) pool)))
  | unmatched (none : r.find? g.first.2 g.second.2 = none) :
    Grouped r tx creator msg op sent g (skip (.noMatchingPair g.first.2 g.second.2))

/-- All that a message can come to, with its entry of the log. -/
inductive Comes (r : Registry) (tx : Transaction) (msg : Nat) (e : Execution) :
    Option LogEntry → Extraction → Prop
  | unparseable {entry : Option LogEntry} (meaning : Message.ofExecution? e = none) :
    Comes r tx msg e entry (skip (.unparseableMessage msg))
  | other {entry : Option LogEntry} (meaning : Message.ofExecution? e = some .other) :
    Comes r tx msg e entry empty
  | staking {entry : Option LogEntry} {m : Message} {c : StakingChange}
    (meaning : Message.ofExecution? e = some m) (change : m.staking? tx = some c) :
    Comes r tx msg e entry (event (.staking c))
  | unlogged {m : Message} (meaning : Message.ofExecution? e = some m)
    (logged : m = .swap ∨ m.liquidity?.isSome) :
    Comes r tx msg e none (skip (.missingLog msg))
  | hopless {entry : LogEntry} {f : HopFault} (meaning : Message.ofExecution? e = some .swap)
    (read : entry.swapHops = .error f) : Comes r tx msg e (some entry) (skip (f.skip msg))
  | hops {entry : LogEntry} {hops : List SwapHop} {parts : List Extraction}
    (meaning : Message.ofExecution? e = some .swap) (read : entry.swapHops = .ok hops)
    (nonempty : hops ≠ []) (each : List.Forall₂ (Hopped r tx e.sender msg) hops parts) :
    Comes r tx msg e (some entry) (concat parts)
  | groupless {entry : LogEntry} {m : Message} {op : LiquidityOp} {sent : Option Amount}
    (meaning : Message.ofExecution? e = some m) (change : m.liquidity? = some (op, sent))
    (read : entry.liquidityGroups? (actionOf op) = none ∨
      entry.liquidityGroups? (actionOf op) = some []) :
    Comes r tx msg e (some entry) (skip (.malformedLiquidityAttributes msg))
  | groups {entry : LogEntry} {m : Message} {op : LiquidityOp} {sent : Option Amount}
    {groups : List LiquidityGroup} {parts : List Extraction}
    (meaning : Message.ofExecution? e = some m) (change : m.liquidity? = some (op, sent))
    (read : entry.liquidityGroups? (actionOf op) = some groups) (nonempty : groups ≠ [])
    (each : List.Forall₂ (Grouped r tx e.sender msg op sent) groups parts) :
    Comes r tx msg e (some entry) (concat parts)

theorem ofHop_hopped (r : Registry) (tx : Transaction) (sender : String) (msg : Nat)
    (hop : SwapHop) : Hopped r tx sender msg hop (ofHop r tx sender msg hop) := by
  unfold ofHop Registry.direction?
  cases hfind : r.find? hop.offerAsset hop.askAsset with
  | none => exact .unmatched hfind
  | some found => exact .swap hfind

theorem ofGroup_grouped (r : Registry) (tx : Transaction) (creator : String) (msg : Nat)
    (op : LiquidityOp) (sent : Option Amount) (g : LiquidityGroup) :
    Always (ofGroup r tx creator msg op sent g) (Grouped r tx creator msg op sent g) := by
  unfold ofGroup
  split
  · rename_i hfind
    exact always_pure (.unmatched hfind)
  · rename_i pair o hfind
    cases o <;>
    · refine Always.bind (P := fun _ => True) (fun _ _ => trivial) fun pool _ => ?_
      exact always_pure (.change pool hfind)

theorem ofSwaps_comes (meaning : Message.ofExecution? e = some .swap) (entry : LogEntry) :
    Comes r tx msg e (some entry) (ofSwaps r tx e.sender msg entry) := by
  unfold ofSwaps
  split
  · rename_i hops hread
    refine .hops meaning hread (LogEntry.swapHops_ne_nil hread) ?_
    rw [List.forall₂_map_right_iff, List.forall₂_same]
    exact fun hop _ => ofHop_hopped r tx _ msg hop
  · rename_i hread
    exact .hopless meaning hread
  · rename_i hread
    exact .hopless meaning hread

theorem ofLiquidity_comes {m : Message} {op : LiquidityOp} {sent : Option Amount}
    (meaning : Message.ofExecution? e = some m) (change : m.liquidity? = some (op, sent))
    (entry : LogEntry) :
    Always (ofLiquidity r tx e.sender msg op sent entry) (Comes r tx msg e (some entry)) := by
  unfold ofLiquidity
  split
  · rename_i hread
    exact always_pure (.groupless meaning change (.inl hread))
  · rename_i hread
    exact always_pure (.groupless meaning change (.inr hread))
  · rename_i groups hne hread
    intro k before
    refine .groups meaning change hread hne ?_
    exact forall₂_mapM (fun g _ => ofGroup_grouped r tx e.sender msg op sent g k) before

theorem ofMessage_comes (r : Registry) (tx : Transaction) (entry : Option LogEntry) (msg : Nat)
    (e : Execution) : Always (ofMessage r tx entry msg e) (Comes r tx msg e entry) := by
  unfold ofMessage
  split
  · exact always_pure (.unparseable ‹_›)
  · exact always_pure (.other ‹_›)
  · exact always_pure (.staking ‹_› rfl)
  · exact always_pure (.staking ‹_› rfl)
  · exact always_pure (.staking ‹_› rfl)
  · rename_i meaning
    split
    · exact always_pure (ofSwaps_comes meaning _)
    · exact always_pure (.unlogged meaning (.inl rfl))
  · rename_i meaning
    split
    · exact ofLiquidity_comes meaning rfl _
    · exact always_pure (.unlogged meaning (.inr rfl))
  · rename_i meaning
    split
    · exact ofLiquidity_comes meaning rfl _
    · exact always_pure (.unlogged meaning (.inr rfl))

def Heard (x : Extraction) : Prop := x.events ≠ [] ∨ x.skipped ≠ []

theorem heard_event (e : Event) : (event e).Heard := .inl (List.cons_ne_nil _ _)

theorem heard_skip (s : Skip) : (skip s).Heard := .inr (List.cons_ne_nil _ _)

theorem heard_concat {α : Type} {R : α → Extraction → Prop} {xs : List α} {parts : List Extraction}
    (hne : xs ≠ []) (h : List.Forall₂ R xs parts) (hR : ∀ a x, R a x → x.Heard) :
    (concat parts).Heard := by
  cases h with
  | nil => exact absurd rfl hne
  | cons hx _ => exact (hR _ _ hx).imp (fun h => by simp [concat, h]) fun h => by simp [concat, h]

theorem Hopped.heard {sender : String} {hop : SwapHop} (h : Hopped r tx sender msg hop x) :
    x.Heard := by
  cases h with
  | swap => exact heard_event _
  | unmatched => exact heard_skip _

theorem Grouped.heard {creator : String} {op : LiquidityOp} {sent : Option Amount}
    {g : LiquidityGroup} (h : Grouped r tx creator msg op sent g x) : x.Heard := by
  cases h with
  | change => exact heard_event _
  | unmatched => exact heard_skip _

theorem Comes.heard (h : Comes r tx msg e entry x)
    (hmeaning : Message.ofExecution? e ≠ some .other) : x.Heard := by
  cases h with
  | unparseable => exact heard_skip _
  | other meaning => exact absurd meaning hmeaning
  | staking => exact heard_event _
  | unlogged => exact heard_skip _
  | hopless => exact heard_skip _
  | hops _ _ nonempty each => exact heard_concat nonempty each fun _ _ => Hopped.heard
  | groupless => exact heard_skip _
  | groups _ _ _ nonempty each => exact heard_concat nonempty each fun _ _ => Grouped.heard

end Extraction

namespace Mixed

open Sample

def unbond : Execution :=
  ⟨"trader", "staking",
    "\x7b\"unbond\":\x7b\"staking_token\":\"lp\",\"amount\":\"5\"\x7d\x7d".toUTF8.toList, []⟩

def transaction : Transaction :=
  { firstSwap with
    bytes := writeExecutions [execution "swap", unbond, execution "provide_liquidity"] }

def executions : List (Nat × Execution) :=
  [(0, execution "swap"), (1, unbond), (2, execution "provide_liquidity")]

end Mixed

namespace Extraction

end Extraction

end PoolLedger
