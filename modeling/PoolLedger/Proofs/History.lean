import PoolLedger.Proofs.Ascending
import PoolLedger.Proofs.ChainOrder
import PoolLedger.Proofs.Keys

/-! Histories of pools. A history can be cut anywhere and taken up again from the
state reached there. Of each time only the last snapshot counts. -/

namespace PoolLedger

namespace PoolState

def after (s : PoolState) (changes : List PoolChange) : PoolState := changes.foldl apply s

theorem after_append (s : PoolState) (xs ys : List PoolChange) :
    s.after (xs ++ ys) = (s.after xs).after ys :=
  List.foldl_append

theorem history_append (address : String) (s : PoolState) (xs ys : List PoolChange) :
    s.history address (xs ++ ys) = s.history address xs ++ (s.after xs).history address ys := by
  induction xs generalizing s with
  | nil => rfl
  | cons c xs ih =>
    rw [List.cons_append, history, history, ih, List.cons_append]
    rfl

theorem mem_history {address : String} {s : PoolState} {changes : List PoolChange} {x : Snapshot}
    (h : x ∈ s.history address changes) :
    x.pairAddress = address ∧ x.uniqueKey = timeKey x.timestamp address ∧
      ∃ c ∈ changes, x.height = c.position.height ∧ x.timestamp = c.timestamp := by
  induction changes generalizing s with
  | nil => cases h
  | cons c rest ih =>
    rcases List.mem_cons.1 h with rfl | h
    · exact ⟨rfl, rfl, c, List.mem_cons_self, rfl, rfl⟩
    · obtain ⟨ha, hk, d, hd, hx⟩ := ih h
      exact ⟨ha, hk, d, List.mem_cons_of_mem c hd, hx⟩

theorem map_timestamp_history (address : String) (s : PoolState) (changes : List PoolChange) :
    (s.history address changes).map Snapshot.timestamp = changes.map PoolChange.timestamp := by
  induction changes generalizing s with
  | nil => rfl
  | cons c rest ih =>
    rw [history, List.map_cons, List.map_cons, ih]
    rfl

theorem history_concat (address : String) (s : PoolState) (changes : List PoolChange)
    (c : PoolChange) :
    s.history address (changes ++ [c]) = s.history address changes ++
      [.of address (s.after (changes ++ [c])).base (s.after (changes ++ [c])).quote
        (s.after (changes ++ [c])).totalShare c.position.height c.timestamp] := by
  rw [history_append, after_append]
  rfl

theorem history_eq_append {address : String} {s : PoolState} {changes : List PoolChange}
    {front tail : List Snapshot} {x : Snapshot}
    (h : s.history address changes = front ++ x :: tail) :
    ∃ before c later, changes = before ++ c :: later ∧
      x = .of address (s.after (before ++ [c])).base (s.after (before ++ [c])).quote
        (s.after (before ++ [c])).totalShare c.position.height c.timestamp ∧
      tail.map Snapshot.timestamp = later.map PoolChange.timestamp := by
  induction front generalizing s changes with
  | nil =>
    cases changes with
    | nil => cases h
    | cons c rest =>
      obtain ⟨rfl, rfl⟩ := List.cons.inj h
      exact ⟨[], c, rest, rfl, rfl, map_timestamp_history address _ rest⟩
  | cons y front ih =>
    cases changes with
    | nil => cases h
    | cons d rest =>
      obtain ⟨before, c, later, rfl, hx, htail⟩ := ih (List.cons.inj h).2
      exact ⟨d :: before, c, later, rfl, hx, htail⟩

theorem getLast?_history (address : String) (s : PoolState) (changes : List PoolChange)
    (hne : changes ≠ []) :
    ∃ c, changes.getLast? = some c ∧ ∃ x, (s.history address changes).getLast? = some x ∧
      x.height = c.position.height ∧ x.timestamp = c.timestamp ∧
        ofSnapshot x = s.after changes := by
  obtain ⟨front, c, rfl⟩ := (List.eq_nil_or_concat changes).resolve_left hne
  simp only [List.concat_eq_append]
  rw [history_concat]
  exact ⟨c, by simp, _, List.getLast?_concat, rfl, rfl, rfl⟩

end PoolState

namespace Snapshot

variable {history later : List Snapshot} {x y : Snapshot}

theorem mem_lastPerTime :
    x ∈ lastPerTime history ↔
      history.reverse.find? (fun s => s.timestamp = x.timestamp) = some x := by
  simp only [lastPerTime, List.mem_filterMap, Ascending.mem_ofList, List.mem_map]
  constructor
  · rintro ⟨t, -, h⟩
    have ht : x.timestamp = t := by simpa using List.find?_some h
    rwa [ht]
  · intro h
    exact ⟨x.timestamp, ⟨x, List.mem_reverse.1 (List.mem_of_find?_eq_some h), rfl⟩, h⟩

theorem split_of_mem_lastPerTime {address : String} {s : PoolState} {changes : List PoolChange}
    (h : x ∈ lastPerTime (s.history address changes)) :
    ∃ before c later, changes = before ++ c :: later ∧
      (∀ d ∈ later, d.timestamp ≠ c.timestamp) ∧
      x = .of address (s.after (before ++ [c])).base (s.after (before ++ [c])).quote
        (s.after (before ++ [c])).totalShare c.position.height c.timestamp := by
  obtain ⟨front, tail, hsplit, hlast⟩ := Ascending.mem_lasts.1 h
  obtain ⟨before, c, later, rfl, rfl, htail⟩ := PoolState.history_eq_append hsplit
  refine ⟨before, c, later, rfl, fun d hd => ?_, rfl⟩
  have hmem := List.mem_map_of_mem (f := PoolChange.timestamp) hd
  rw [← htail] at hmem
  obtain ⟨y, hy, hyd⟩ := List.mem_map.1 hmem
  exact hyd ▸ hlast y hy

theorem lastPerTime_pairwise (history : List Snapshot) :
    (lastPerTime history).Pairwise fun x y => x.timestamp < y.timestamp :=
  (Ascending.lasts_pairwise Ranged.linear).imp of_decide_eq_true

theorem mem_of_mem_lastPerTime (h : x ∈ lastPerTime history) : x ∈ history :=
  List.mem_reverse.1 (List.mem_of_find?_eq_some (mem_lastPerTime.1 h))

theorem eq_of_mem_lastPerTime (hx : x ∈ lastPerTime history) (hy : y ∈ lastPerTime history)
    (h : x.timestamp = y.timestamp) : x = y := by
  rw [mem_lastPerTime] at hx hy
  rw [h, hy] at hx
  exact (Option.some.inj hx).symm

theorem exists_mem_lastPerTime (h : y ∈ history) :
    ∃ x ∈ lastPerTime history, x.timestamp = y.timestamp :=
  Ascending.exists_mem_lasts h

theorem mem_lastPerTime_append :
    x ∈ lastPerTime (history ++ later) ↔
      x ∈ lastPerTime later ∨
        x ∈ lastPerTime history ∧ ∀ y ∈ later, y.timestamp ≠ x.timestamp := by
  rw [mem_lastPerTime, mem_lastPerTime, mem_lastPerTime, List.reverse_append, List.find?_append,
    Option.or_eq_some_iff, List.find?_eq_none]
  simp only [List.mem_reverse, decide_eq_true_eq]
  rw [and_comm (a := ∀ y ∈ later, _)]

theorem getLast_mem_lastPerTime (h : history.getLast? = some x) : x ∈ lastPerTime history := by
  obtain ⟨front, rfl⟩ := List.getLast?_eq_some_iff.1 h
  rw [mem_lastPerTime_append]
  exact Or.inl (mem_lastPerTime.2 (by simp))

end Snapshot

def Seeds.state (seeds : Seeds) (address : String) : PoolState :=
  ((seeds.find? address).map PoolState.ofSnapshot).getD .empty

namespace Snapshot

theorem ofPool_eq (seeds : Seeds) (address : String) (changes : List PoolChange) :
    ofPool seeds address changes =
      lastPerTime ((seeds.state address).history address (PoolChange.inChainOrder changes)) :=
  rfl

variable {r : Registry} {swaps : List Swap} {liquidity : List LiquidityChange}

theorem filter_registered {a : String} (ha : (r.byAddress? a).isSome) :
    ((PoolChange.all swaps liquidity).filter fun c => (r.byAddress? c.pairAddress).isSome).filter
      (fun c => c.pairAddress = a) = PoolChange.ofPool swaps liquidity a := by
  rw [List.filter_filter, PoolChange.ofPool]
  apply List.filter_congr
  intro c _
  by_cases hc : c.pairAddress = a
  · simp [hc, ha]
  · simp [hc]

theorem mem_accumulate {seeds : Seeds} :
    x ∈ accumulate r seeds swaps liquidity ↔
      ∃ a, (r.byAddress? a).isSome ∧ x ∈ ofPool seeds a (PoolChange.ofPool swaps liquidity a) := by
  simp only [accumulate, List.mem_flatMap, Ascending.mem_ofList, List.mem_map, List.mem_filter]
  constructor
  · rintro ⟨a, ⟨c, ⟨-, hc⟩, rfl⟩, hx⟩
    rw [filter_registered hc] at hx
    exact ⟨_, hc, hx⟩
  · rintro ⟨a, ha, hx⟩
    obtain ⟨-, -, c, hc, -⟩ := PoolState.mem_history (mem_of_mem_lastPerTime hx)
    obtain ⟨hca, rfl⟩ := PoolChange.mem_ofPool.1 (PoolChange.mem_inChainOrder.1 hc)
    refine ⟨_, ⟨c, ⟨hca, ha⟩, rfl⟩, ?_⟩
    rwa [filter_registered ha]

end Snapshot

end PoolLedger
