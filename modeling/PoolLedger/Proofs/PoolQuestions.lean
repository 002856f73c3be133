import PoolLedger.Proofs.Answers
import PoolLedger.Proofs.Transcript

/-! Questions for pools. An extraction asks for the pool of each change of liquidity that it
finds, and for nothing else. Whoever answers, it finds the same events; what is taken from the
answers are the reserves of the pools and the fees that are counted from them. -/

namespace PoolLedger

open Asking

inductive Event.SameButPool : Event → Event → Prop
  | swap (s : Swap) : SameButPool (.swap s) (.swap s)
  | liquidity (e : LiquidityChange) (base quote fee : Amount) :
    SameButPool (.liquidity e) (.liquidity
      { e with baseReserve := base, quoteReserve := quote, protocolFee := fee })
  | staking (e : StakingChange) : SameButPool (.staking e) (.staking e)

theorem LiquidityChange.eq_of_withoutPool {e e' : LiquidityChange}
    (h : e.withoutPool = e'.withoutPool) :
    e' = { e with
      baseReserve := e'.baseReserve, quoteReserve := e'.quoteReserve,
      protocolFee := e'.protocolFee } := by
  cases e
  cases e'
  simp only [withoutPool, mk.injEq] at h ⊢
  simp only [h, and_self]

theorem Event.sameButPool_of_withoutPool {e e' : Event} (h : e.withoutPool = e'.withoutPool) :
    e.SameButPool e' := by
  cases e with
  | swap s =>
    cases e' with
    | swap s' => cases h; exact .swap s
    | liquidity => cases h
    | staking => cases h
  | liquidity e =>
    cases e' with
    | swap => cases h
    | liquidity e' =>
      rw [LiquidityChange.eq_of_withoutPool (Event.liquidity.inj h)]
      exact .liquidity e _ _ _
    | staking => cases h
  | staking e =>
    cases e' with
    | swap => cases h
    | liquidity => cases h
    | staking e' => cases h; exact .staking e

/-- What was said for a change of liquidity: its contract was asked for the pool at the height
of the change. The reserves are those of the report, and the fee is counted from them. Without
a report all three are zero. -/
inductive LiquidityChange.Told (r : Registry) (e : LiquidityChange) : Said → Prop
  | reported {pair : Pair} {report : PoolReport} (registered : pair ∈ r.pairs)
    (baseDenom : e.baseDenom = pair.base.denom) (quoteDenom : e.quoteDenom = pair.quote.denom)
    (baseReserve : e.baseReserve = report.amountOf e.baseDenom)
    (quoteReserve : e.quoteReserve = report.amountOf e.quoteDenom)
    (protocolFee : e.protocolFee = (Reserves.ofReport pair report).fee pair e.share) :
    Told r e ⟨.pool e.pairAddress (some e.height), .ok report⟩
  | failed {error : IndexerError} (baseReserve : e.baseReserve = 0)
    (quoteReserve : e.quoteReserve = 0) (protocolFee : e.protocolFee = 0) :
    Told r e ⟨.pool e.pairAddress (some e.height), .error error⟩

namespace Asking

variable {α β : Type} {R : α → List Said → Prop} {S : β → List Said → Prop} {k : Querier}
  {before : List Query}

def Says (p : Asking α) (R : α → List Said → Prop) : Prop :=
  ∀ k before, ∃ new, k.told (p k before).2 = k.told before ++ new ∧ R (p k before).1 new

theorem Says.said {p : Asking α} (h : Says p R) : R (p k before).1 (said k before p) := by
  obtain ⟨new, htold, hR⟩ := h k before
  rwa [Asking.said, htold, ← k.length_told before, List.drop_left]

theorem says_pure {a : α} (h : R a []) : Says (pure a) R :=
  fun _ _ => ⟨[], (List.append_nil _).symm, h⟩

theorem says_ask {q : Query} {R : Except IndexerError q.Answer → List Said → Prop}
    (h : ∀ answer, R answer [⟨q, answer⟩]) : Says (ask q) R :=
  fun k before => ⟨[⟨q, k.answer before q⟩], rfl, h _⟩

theorem Says.bind {p : Asking α} {f : α → Asking β} (hp : Says p R)
    (hf : ∀ a new, R a new → Says (f a) fun b more => S b (new ++ more)) : Says (p >>= f) S := by
  intro k before
  obtain ⟨new, hnew, hR⟩ := hp k before
  obtain ⟨more, hmore, hS⟩ := hf _ new hR k (p k before).2
  refine ⟨new ++ more, ?_, hS⟩
  rw [← List.append_assoc, ← hnew]
  exact hmore

end Asking

namespace Extraction

variable {r : Registry} {tx : Transaction}

/-- Each change of liquidity has its own question, in the order of asking. -/
def Accounted (r : Registry) (x : Extraction) (said : List Said) : Prop :=
  List.Forall₂ (LiquidityChange.Told r) x.liquidity said

theorem accounted_of_nil {x : Extraction} (h : x.liquidity = []) : Accounted r x [] := by
  rw [Accounted, h]
  exact .nil

theorem concat_mapM_accounted {β : Type} {f : β → Asking Extraction} {xs : List β}
    (h : ∀ x ∈ xs, Says (f x) (Accounted r)) :
    Says (do return concat (← xs.mapM f)) (Accounted r) := by
  have hparts : Says (xs.mapM f) fun parts said => Accounted r (concat parts) said := by
    induction xs with
    | nil => exact says_pure (accounted_of_nil rfl)
    | cons x xs ih =>
      rw [List.mapM_cons]
      refine (h x List.mem_cons_self).bind fun part new hpart => ?_
      refine (ih fun y hy => h y (List.mem_cons_of_mem x hy)).bind fun parts more hparts => ?_
      refine says_pure ?_
      rw [List.append_nil, Accounted, liquidity_concat, List.flatMap_cons, ← liquidity_concat]
      exact List.rel_append hpart hparts
  refine hparts.bind fun parts new hnew => says_pure ?_
  rwa [List.append_nil]

theorem reservesAt_told (pair : Pair) (address : String) (height : Height) :
    Says (reservesAt pair address height) fun pool said =>
      (∃ report, pool = .ofReport pair report ∧
        said = [⟨.pool address (some height), .ok report⟩]) ∨
      ∃ error, pool = .none ∧ said = [⟨.pool address (some height), .error error⟩] := by
  refine (says_ask (R := fun answer said => said = [⟨_, answer⟩]) fun _ => rfl).bind ?_
  rintro (error | report) new rfl
  · exact says_pure (.inr ⟨error, rfl, List.append_nil _⟩)
  · exact says_pure (.inl ⟨report, rfl, List.append_nil _⟩)

theorem ofGroup_accounted (creator : String) (msg : Nat) (op : LiquidityOp) (sent : Option Amount)
    (g : LiquidityGroup) : Says (ofGroup r tx creator msg op sent g) (Accounted r) := by
  unfold ofGroup
  split
  · exact says_pure (accounted_of_nil rfl)
  · rename_i pair orientation found
    obtain ⟨p, hp, hfound⟩ := List.exists_of_findSome?_eq_some found
    obtain ⟨o, -, he⟩ := Option.map_eq_some_iff.1 hfound
    cases he
    refine (reservesAt_told _ _ _).bind ?_
    rintro pool new (⟨report, rfl, rfl⟩ | ⟨error, rfl, rfl⟩)
    · exact says_pure (.cons (.reported hp rfl rfl rfl rfl rfl) .nil)
    · exact says_pure (.cons (.failed rfl rfl (Reserves.fee_none _ _)) .nil)

theorem ofSwaps_liquidity (sender : String) (msg : Nat) (entry : LogEntry) :
    (ofSwaps r tx sender msg entry).liquidity = [] := by
  unfold ofSwaps
  split
  · rw [liquidity_concat, List.flatMap_eq_nil_iff, List.forall_mem_map]
    intro hop _
    unfold ofHop
    split
    · rfl
    · rfl
  · rfl
  · rfl

theorem parts_accounted (r : Registry) (tx : Transaction) :
    HoldsOfParts r tx fun p => Says p (Accounted r) where
  skip _ := says_pure (accounted_of_nil rfl)
  empty := says_pure (accounted_of_nil rfl)
  staking _ _ _ := says_pure (accounted_of_nil rfl)
  swaps sender msg entry := says_pure (accounted_of_nil (ofSwaps_liquidity sender msg entry))
  group := ofGroup_accounted
  together _ _ h := concat_mapM_accounted h

/-- Whoever answers, and whatever was asked before, a transaction has the same skips and the
same events in the same order, but for reserves and fees of changes of liquidity. For each
change its own contract was asked, these are taken from the answer, and they are zero when the
question failed. -/
theorem answers_decide_reserves_alone (r : Registry) (tx : Transaction) (k k' : Querier)
    (before before' : List Query) :
    (ofTransaction r tx k before).1.skipped = (ofTransaction r tx k' before').1.skipped ∧
    List.Forall₂ Event.SameButPool (ofTransaction r tx k before).1.events
      (ofTransaction r tx k' before').1.events ∧
    List.Forall₂ (LiquidityChange.Told r) (ofTransaction r tx k before).1.liquidity
      (said k before (ofTransaction r tx)) := by
  have hblind : (ofTransaction r tx k before).1.withoutPool =
      (ofTransaction r tx k' before').1.withoutPool :=
    (ofTransaction_blind r tx k before).trans (ofTransaction_blind r tx k' before').symm
  obtain ⟨hevents, hskipped⟩ := Extraction.mk.inj hblind
  refine ⟨hskipped, ?_, (parts_accounted r tx).ofTransaction.said⟩
  rw [← List.forall₂_eq_eq_eq, List.forall₂_map_left_iff, List.forall₂_map_right_iff] at hevents
  exact hevents.imp fun _ _ => Event.sameButPool_of_withoutPool

end Extraction

end PoolLedger
