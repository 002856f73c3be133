import Mathlib.Algebra.BigOperators.Group.List.Basic
import Mathlib.Algebra.Ring.Int.Defs
import PoolLedger.Proofs.Ingestion
import PoolLedger.Proofs.RunningReserves

/-! Reserves and events agree. The rows of events say by how much each reserve
of a pool moved, and the latest stored reserves are what the pool held before
its first event plus all of these movements. -/

namespace PoolLedger

open PoolChange (ofPool)

structure Movement where
  height : Int
  txIndex : Int
  msgIndex : Int
  base : Int
  quote : Int
deriving DecidableEq

/-- A row of the table of swaps as a movement: what is sold goes into the base
reserve and what is returned out of the quote reserve, or the other way round. -/
def Row.swapMovement (row : Row) : Movement :=
  if row.textIs 8 Direction.sell.text then
    ⟨row.integerAt 12, row.integerAt 13, row.integerAt 14, row.integerAt 2, -row.integerAt 4⟩
  else ⟨row.integerAt 12, row.integerAt 13, row.integerAt 14, -row.integerAt 4, row.integerAt 2⟩

/-- A row of the table of liquidity as a movement: what is provided goes in, what
is withdrawn goes out. -/
def Row.liquidityMovement (row : Row) : Movement :=
  if row.textIs 8 LiquidityOp.provide.text then
    ⟨row.integerAt 13, row.integerAt 14, row.integerAt 15, row.integerAt 2, row.integerAt 4⟩
  else ⟨row.integerAt 13, row.integerAt 14, row.integerAt 15, -row.integerAt 2, -row.integerAt 4⟩

def Store.movements (s : Store) (address : String) : List Movement :=
  (s.swaps.filter fun r => r.textIs 9 address).map Row.swapMovement ++
    (s.liquidity.filter fun r => r.textIs 12 address).map Row.liquidityMovement

namespace Movement

def le (a b : Movement) : Bool :=
  a.height < b.height || (a.height = b.height &&
    (a.txIndex < b.txIndex || (a.txIndex = b.txIndex && a.msgIndex ≤ b.msgIndex)))

def inChainOrder (ms : List Movement) : List Movement := ms.mergeSort le

def IsBalance (n : Int) : Prop :=
  -170141183460469231731687303715884105728 ≤ n ∧ n ≤ 170141183460469231731687303715884105727

/-- From its start on, no reserve leaves its range at any point. -/
def StaysInRange (base quote : Int) (ms : List Movement) : Prop :=
  ∀ n, IsBalance (base + ((ms.take n).map Movement.base).sum) ∧
    IsBalance (quote + ((ms.take n).map Movement.quote).sum)

def IsFirst (first : Height) (ms : List Movement) : Prop :=
  (∃ m ∈ ms, m.height = first.val) ∧ ∀ m ∈ ms, first.val ≤ m.height

end Movement

def PoolChange.movement (c : PoolChange) : Movement where
  height := c.position.height.val
  txIndex := c.position.txIndex.val
  msgIndex := c.position.msgIndex.val
  base := c.delta.base.val
  quote := c.delta.quote.val

theorem Amount.toBalance_val {a : Amount} (h : Movement.IsBalance a.val) :
    a.toBalance.val = a.val ∧ (Balance.neg a.toBalance).val = -a.val := by
  have := a.lo_le
  obtain ⟨-, hi⟩ := h
  simp only [Balance.neg, Amount.toBalance, Ranged.pull_val]
  omega

theorem IsWord.isBalance {n : Int} (h : IsWord n) : Movement.IsBalance n := by
  obtain ⟨h₁, h₂⟩ := h
  constructor <;> omega

theorem swapMovement_stored {x : Swap} (h : Record.Fits x) :
    Row.swapMovement (Record.stored x) = (PoolChange.swap x).movement := by
  obtain ⟨h₂, h₄, h₁₂, h₁₃, h₁₄, -⟩ := integerAt_stored_swap h
  obtain ⟨ho, hr, -⟩ := fits_swap.1 h
  obtain ⟨hov, hon⟩ := Amount.toBalance_val ho.isBalance
  obtain ⟨hrv, hrn⟩ := Amount.toBalance_val hr.isBalance
  simp only [Row.swapMovement, textIs_stored_swap.1, h₂, h₄, h₁₂, h₁₃, h₁₄]
  cases hd : x.direction with
  | sell =>
    rw [if_pos rfl]
    simp [PoolChange.movement, PoolChange.position, PoolChange.delta, Swap.delta, hd, hov, hrn,
      Swap.position]
  | buy =>
    rw [if_neg (by decide)]
    simp [PoolChange.movement, PoolChange.position, PoolChange.delta, Swap.delta, hd, hov, hrn,
      Swap.position]

theorem liquidityMovement_stored {e : LiquidityChange} (h : Record.Fits e) :
    Row.liquidityMovement (Record.stored e) = (PoolChange.liquidity e).movement := by
  obtain ⟨h₂, h₄, h₁₃, h₁₄, h₁₅⟩ := integerAt_stored_liquidity h
  obtain ⟨hb, hq, -⟩ := fits_liquidity.1 h
  obtain ⟨hbv, hbn⟩ := Amount.toBalance_val hb.isBalance
  obtain ⟨hqv, hqn⟩ := Amount.toBalance_val hq.isBalance
  simp only [Row.liquidityMovement, textIs_stored_liquidity.1, h₂, h₄, h₁₃, h₁₄, h₁₅]
  cases ho : e.op with
  | provide =>
    rw [if_pos rfl]
    simp [PoolChange.movement, PoolChange.position, PoolChange.delta, LiquidityChange.delta, ho,
      hbv, hqv, LiquidityChange.position]
  | withdraw =>
    rw [if_neg (by decide)]
    simp [PoolChange.movement, PoolChange.position, PoolChange.delta, LiquidityChange.delta, ho,
      hbn, hqn, LiquidityChange.position]

theorem movements_eq {s : Store} {swaps : List Swap} {liquidity : List LiquidityChange}
    (hs : s.swaps = swaps.map Record.stored) (hl : s.liquidity = liquidity.map Record.stored)
    (hfs : ∀ x ∈ swaps, Record.Fits x) (hfl : ∀ x ∈ liquidity, Record.Fits x)
    (address : String) :
    s.movements address = (ofPool swaps liquidity address).map PoolChange.movement := by
  rw [Store.movements, hs, hl, ofPool, PoolChange.all, List.filter_append, List.map_append,
    List.filter_map, List.filter_map, List.filter_map, List.filter_map, List.map_map,
    List.map_map, List.map_map, List.map_map]
  congr 1
  · have hp : swaps.filter ((fun r => r.textIs 9 address) ∘ Record.stored) =
        swaps.filter ((fun c => decide (c.pairAddress = address)) ∘ PoolChange.swap) := by
      apply List.filter_congr
      intro x _
      rw [Bool.eq_iff_iff, Function.comp, Function.comp, textIs_stored_swap.2.1,
        decide_eq_true_eq]
      rfl
    rw [hp]
    apply List.map_congr_left
    intro x hx
    exact swapMovement_stored (hfs x (List.mem_filter.1 hx).1)
  · have hp : liquidity.filter ((fun r => r.textIs 12 address) ∘ Record.stored) =
        liquidity.filter ((fun c => decide (c.pairAddress = address)) ∘ PoolChange.liquidity) := by
      apply List.filter_congr
      intro x _
      rw [Bool.eq_iff_iff, Function.comp, Function.comp, textIs_stored_liquidity.2,
        decide_eq_true_eq]
      rfl
    rw [hp]
    apply List.map_congr_left
    intro x hx
    exact liquidityMovement_stored (hfl x (List.mem_filter.1 hx).1)

namespace Movement

theorem le_iff {a b : Movement} :
    a.le b = true ↔ a.height < b.height ∨ a.height = b.height ∧
      (a.txIndex < b.txIndex ∨ a.txIndex = b.txIndex ∧ a.msgIndex ≤ b.msgIndex) := by
  simp [le]

theorem inChainOrder_map (changes : List PoolChange) :
    inChainOrder (changes.map PoolChange.movement) =
      (PoolChange.inChainOrder changes).map PoolChange.movement := by
  symm
  apply List.map_mergeSort
  intro a _ b _
  rw [Bool.eq_iff_iff, Position.le_iff, le_iff]
  rfl

theorem sum_inChainOrder (f : Movement → Int) (ms : List Movement) :
    ((inChainOrder ms).map f).sum = (ms.map f).sum :=
  ((List.mergeSort_perm ms le).map f).sum_eq

theorem StaysInRange.tail {base quote : Int} {m : Movement} {ms : List Movement}
    (h : StaysInRange base quote (m :: ms)) :
    StaysInRange (base + m.base) (quote + m.quote) ms := by
  intro n
  have hn := h (n + 1)
  simp only [List.take_succ_cons, List.map_cons, List.sum_cons] at hn
  rw [Int.add_assoc, Int.add_assoc]
  exact hn

theorem after_eq_add_sum (changes : List PoolChange) (s : PoolState)
    (h : StaysInRange s.base.val s.quote.val (changes.map PoolChange.movement)) :
    (s.after changes).base.val =
        s.base.val + ((changes.map PoolChange.movement).map Movement.base).sum ∧
      (s.after changes).quote.val =
        s.quote.val + ((changes.map PoolChange.movement).map Movement.quote).sum := by
  induction changes generalizing s with
  | nil => simp [PoolState.after]
  | cons c rest ih =>
    -- the next state is in range, so adding did not stop at a bound
    have hstep : (s.apply c).base.val = s.base.val + c.movement.base ∧
        (s.apply c).quote.val = s.quote.val + c.movement.quote := by
      obtain ⟨⟨hb₁, hb₂⟩, ⟨hq₁, hq₂⟩⟩ := h 1
      simp only [List.map_cons, List.take_succ_cons, List.take_zero, List.map_nil, List.sum_cons,
        List.sum_nil, PoolChange.movement] at hb₁ hb₂ hq₁ hq₂
      simp only [PoolState.apply, Ranged.satAdd, Ranged.pull_val, PoolChange.movement]
      omega
    have hrest := ih (s.apply c) (by
      rw [hstep.1, hstep.2]
      exact h.tail)
    rw [hstep.1, hstep.2] at hrest
    change ((s.apply c).after rest).base.val = _ ∧ ((s.apply c).after rest).quote.val = _
    rw [hrest.1, hrest.2]
    simp only [List.map_cons, List.sum_cons]
    omega

end Movement

namespace Indexer

variable {ix : Indexer} {K : Segment → Querier → Prop} {chain : Chain} {s : Store} {p : Progress}

theorem isFirst_movements {changes : List PoolChange} {first : Height}
    (h : PoolChange.leastHeight? changes = some first) :
    Movement.IsFirst first (changes.map PoolChange.movement) := by
  obtain ⟨⟨c, hc, rfl⟩, hmin⟩ := PoolChange.leastHeight?_eq_some.1 h
  refine ⟨⟨c.movement, List.mem_map_of_mem hc, rfl⟩, fun m hm => ?_⟩
  obtain ⟨d, hd, rfl⟩ := List.mem_map.1 hm
  exact hmin d hd

/-- The latest reserves of a registered pool with events are what was told of its contract for
the height below the first of them, or nothing, plus the movements of all of them. It was told
by whoever answered about the segment of that first event. -/
theorem latestReserve_eq_sum_of_movements (hsame : chain.SameTimes) (h : ix.Follows K chain p s)
    {address : String} {pair : Pair} (hp : ix.registry.byAddress? address = some pair)
    (hne : s.movements address ≠ []) :
    ∃ first segment k asked, Movement.IsFirst first (s.movements address) ∧ K segment k ∧
      (∃ tx ∈ segment.transactions, tx.height = first) ∧
      (Movement.StaysInRange (k.reservesTold asked pair address first).base.val
          (k.reservesTold asked pair address first).quote.val
          (Movement.inChainOrder (s.movements address)) →
        ∃ x, s.latestReserve address = .ok (some x) ∧
          x.base.val = (k.reservesTold asked pair address first).base.val +
            ((s.movements address).map Movement.base).sum ∧
          x.quote.val = (k.reservesTold asked pair address first).quote.val +
            ((s.movements address).map Movement.quote).sum) := by
  obtain ⟨o, swaps, liquidity, hs, hr, -⟩ := h.recounts hsame .silent
  obtain ⟨start, hstart, ht⟩ := hr.pools address pair hp
  have hm := movements_eq hs.swapTable.rows_eq hs.liquidityTable.rows_eq hs.swapTable.fits
    hs.liquidityTable.fits address
  rw [hm] at hne ⊢
  have hne' : ofPool swaps liquidity address ≠ [] := by simpa using hne
  obtain ⟨first, hfirst⟩ := PoolChange.exists_leastHeight hne'
  obtain ⟨segment, k, asked, kind, hin, rfl⟩ := hstart first hfirst
  refine ⟨first, segment, k, asked, isFirst_movements hfirst, kind, hin, fun hrange => ?_⟩
  obtain ⟨x, hx, hstate⟩ := PoolState.exists_last address
    (.ofReserves (k.reservesTold asked pair address first)) hne'
  have hlatest : s.latestReserve address = .ok (some x) := by
    rw [Store.latestReserve, ht.latestReserveBefore_eq
      ((hs.sameTimes hsame).subset fun _ hc => (PoolChange.mem_ofPool.1 hc).1), hx]
    exact fun c hc => hs.height_lt (PoolChange.mem_ofPool.1 hc).1
  refine ⟨x, hlatest, ?_⟩
  -- the reserves that were told are a start in range, so they were taken as they are
  have htold : (PoolState.ofReserves (k.reservesTold asked pair address first)).base.val =
        (k.reservesTold asked pair address first).base.val ∧
      (PoolState.ofReserves (k.reservesTold asked pair address first)).quote.val =
        (k.reservesTold asked pair address first).quote.val := by
    obtain ⟨hb, hq⟩ := hrange 0
    simp only [List.take_zero, List.map_nil, List.sum_nil, Int.add_zero] at hb hq
    exact ⟨(Amount.toBalance_val hb).1, (Amount.toBalance_val hq).1⟩
  rw [Movement.inChainOrder_map] at hrange
  have hsum := Movement.after_eq_add_sum _ (PoolState.ofReserves
    (k.reservesTold asked pair address first)) (by rwa [htold.1, htold.2])
  rw [← hstate, htold.1, htold.2, ← Movement.inChainOrder_map, Movement.sum_inChainOrder,
    Movement.sum_inChainOrder] at hsum
  exact hsum

open Sample TwoSwaps in
/-- The pool held 10 and 20 before two sales of 1 for 2. When the second one was stored nobody
answered. -/
theorem latestReserve_after_two_swaps :
    afterSecond.movements "pool" = [⟨110, 0, 0, 1, -2⟩, ⟨130, 0, 0, 1, -2⟩] ∧
      ∃ x, afterSecond.latestReserve "pool" = .ok (some x) ∧
        x.base.val = 12 ∧ x.quote.val = 16 := by
  have hmoved : afterSecond.movements "pool" = [⟨110, 0, 0, 1, -2⟩, ⟨130, 0, 0, 1, -2⟩] := by
    decide +kernel
  -- the segment of the second swap has nothing at the height of the first
  have hlater : ¬ ∃ tx ∈ [secondSwap], tx.height = 110 := by decide
  have hfollows : indexer.Follows
      (fun segment k => (∃ tx ∈ segment.transactions, tx.height = 110) → k = querier) _ _ _ :=
    follows_second (k := .silent) (fun _ => rfl) (.inr rfl) fun h => absurd h hlater
  have hpair : indexer.registry.byAddress? "pool" = some pair := by decide
  obtain ⟨first, segment, k, asked, ⟨hfirst, hleast⟩, kind, hin, hlatest⟩ :=
    latestReserve_eq_sum_of_movements sameTimes hfollows hpair (by rw [hmoved]; simp)
  rw [hmoved] at hfirst hleast hlatest
  obtain rfl : first = 110 := by
    have hle := hleast _ List.mem_cons_self
    simp only [List.exists_mem_cons_iff] at hfirst
    apply Ranged.ext
    change first.val = 110
    change first.val ≤ 110 at hle
    rcases hfirst with h | h | h
    · exact h.symm
    · change 130 = first.val at h
      omega
    · simp at h
  obtain rfl := kind hin
  have htold : querier.reservesTold asked pair "pool" 110 = ⟨10, 20, 5⟩ := rfl
  have hsorted : Movement.inChainOrder [⟨110, 0, 0, 1, -2⟩, ⟨130, 0, 0, 1, -2⟩] =
      [⟨110, 0, 0, 1, -2⟩, ⟨130, 0, 0, 1, -2⟩] :=
    List.mergeSort_of_pairwise (by decide)
  rw [htold, hsorted] at hlatest
  refine ⟨hmoved, hlatest fun n => ?_⟩
  have hbase : (10 : Amount).val = 10 := rfl
  have hquote : (20 : Amount).val = 20 := rfl
  rcases n with _ | _ | n <;> simp [Movement.IsBalance, hbase, hquote]

end Indexer

end PoolLedger
