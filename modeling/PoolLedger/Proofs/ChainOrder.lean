import PoolLedger.Proofs.StableSort
import PoolLedger.Proofs.Store.Record
import PoolLedger.Store.Reading

/-! Chain order, of events and of the rows that hold them. Events below a height
come before the others, so the order can be taken segment by segment. -/

namespace PoolLedger

theorem Position.le_iff {a b : Position} :
    a.le b = true ↔ a.height.val < b.height.val ∨ a.height.val = b.height.val ∧
      (a.txIndex.val < b.txIndex.val ∨
        a.txIndex.val = b.txIndex.val ∧ a.msgIndex.val ≤ b.msgIndex.val) := by
  simp [Position.le, Ranged.lt_def, Ranged.le_def, Ranged.ext_iff]

theorem Position.le_trans (a b c : Position) (hab : a.le b) (hbc : b.le c) : a.le c := by
  rw [Position.le_iff] at *
  omega

theorem Position.le_total (a b : Position) : a.le b || b.le a := by
  rw [Bool.or_eq_true, Position.le_iff, Position.le_iff]
  omega

theorem Position.le_antisymm {a b : Position} (hab : a.le b) (hba : b.le a) : a = b := by
  rw [Position.le_iff] at hab hba
  have heq : a.height.val = b.height.val ∧ a.txIndex.val = b.txIndex.val ∧
      a.msgIndex.val = b.msgIndex.val := by omega
  cases a
  cases b
  simpa only [Position.mk.injEq, Ranged.ext_iff] using heq

theorem Position.height_le {a b : Position} (h : a.le b) : a.height.val ≤ b.height.val := by
  rw [Position.le_iff] at h
  omega

theorem Position.le_of_height_lt {a b : Position} (h : a.height < b.height) : ¬ b.le a := by
  rw [Ranged.lt_def] at h
  rw [Position.le_iff]
  omega

namespace Row

theorem upTo_trans (places : List Nat) (a b c : Row) (hab : upTo places a b)
    (hbc : upTo places b c) : upTo places a c := by
  induction places with
  | nil => rfl
  | cons i rest ih =>
    simp only [upTo, Bool.or_eq_true, Bool.and_eq_true, decide_eq_true_eq] at *
    rcases hab with h₁ | ⟨h₁, r₁⟩ <;> rcases hbc with h₂ | ⟨h₂, r₂⟩
    · exact Or.inl (by omega)
    · exact Or.inl (by omega)
    · exact Or.inl (by omega)
    · exact Or.inr ⟨by omega, ih r₁ r₂⟩

theorem upTo_total (places : List Nat) (a b : Row) : upTo places a b || upTo places b a := by
  induction places with
  | nil => rfl
  | cons i rest ih =>
    simp only [upTo, Bool.or_eq_true, Bool.and_eq_true, decide_eq_true_eq] at *
    by_cases he : a.integerAt i = b.integerAt i
    · rcases ih with h | h
      · exact Or.inl (Or.inr ⟨he, h⟩)
      · exact Or.inr (Or.inr ⟨he.symm, h⟩)
    · omega

theorem upTo_stored_swap {s t : Swap} (hs : Record.Fits s) (ht : Record.Fits t) :
    upTo [12, 13, 14] (Record.stored s) (Record.stored t) = s.position.le t.position := by
  obtain ⟨-, -, hs₁, hs₂, hs₃, -⟩ := integerAt_stored_swap hs
  obtain ⟨-, -, ht₁, ht₂, ht₃, -⟩ := integerAt_stored_swap ht
  rw [Bool.eq_iff_iff, Position.le_iff]
  simp only [upTo, hs₁, hs₂, hs₃, ht₁, ht₂, ht₃, Bool.or_eq_true, Bool.and_eq_true,
    decide_eq_true_eq, Swap.position, and_true]
  omega

end Row

namespace Store

theorem latestBy_eq_some {places : List Nat} {rows : List Row} {z : Row} (hz : z ∈ rows)
    (h : ∀ row ∈ rows, row ≠ z → ¬ Row.upTo places z row) : latestBy places rows = some z := by
  have ht := Row.upTo_trans places
  have hl := Row.upTo_total places
  have hne : rows.mergeSort (Row.upTo places) ≠ [] :=
    List.ne_nil_of_mem (List.mem_mergeSort.2 hz)
  have hy := List.getLast?_eq_some_getLast hne
  obtain ⟨hyr, hym⟩ := StableSort.le_getLast_mergeSort ht hl hy
  rw [latestBy, hy]
  by_contra hyz
  exact h _ hyr (fun e => hyz (by rw [e])) (hym z hz)

end Store

namespace PoolChange

def ofPool (swaps : List Swap) (liquidity : List LiquidityChange) (address : String) :
    List PoolChange :=
  (all swaps liquidity).filter fun c => c.pairAddress = address

theorem filter_all_append {p : PoolChange → Bool} {swaps swaps' : List Swap}
    {liquidity liquidity' : List LiquidityChange} (hp : ∀ c ∈ all swaps liquidity, p c)
    (hn : ∀ c ∈ all swaps' liquidity', ¬ p c) :
    (all (swaps ++ swaps') (liquidity ++ liquidity')).filter p = all swaps liquidity ∧
      (all (swaps ++ swaps') (liquidity ++ liquidity')).filter (fun c => !p c) =
        all swaps' liquidity' := by
  simp only [all, List.mem_append] at hp hn
  simp only [all, List.map_append, List.filter_append]
  constructor
  · rw [List.filter_eq_self.2 fun c hc => hp c (Or.inl hc),
      List.filter_eq_nil_iff.2 fun c hc => hn c (Or.inl hc),
      List.filter_eq_self.2 fun c hc => hp c (Or.inr hc),
      List.filter_eq_nil_iff.2 fun c hc => hn c (Or.inr hc), List.append_nil, List.append_nil]
  · rw [List.filter_eq_nil_iff.2 fun c hc => by simpa using hp c (Or.inl hc),
      List.filter_eq_self.2 fun c hc => by simpa using hn c (Or.inl hc),
      List.filter_eq_nil_iff.2 fun c hc => by simpa using hp c (Or.inr hc),
      List.filter_eq_self.2 fun c hc => by simpa using hn c (Or.inr hc), List.nil_append,
      List.nil_append]

theorem inChainOrder_eq_append {changes : List PoolChange} (p : PoolChange → Bool)
    (h : ∀ a ∈ changes, ∀ b ∈ changes, p a → ¬ p b → a.position.height < b.position.height) :
    inChainOrder changes =
      inChainOrder (changes.filter p) ++ inChainOrder (changes.filter fun c => !p c) := by
  apply StableSort.mergeSort_eq_append (α := PoolChange)
  · exact fun a b c => Position.le_trans a.position b.position c.position
  · exact fun a b => Position.le_total a.position b.position
  · exact fun a ha b hb hpa hpb => Position.le_of_height_lt (h a ha b hb hpa hpb)

theorem inChainOrder_ofPool_append {swaps swaps' : List Swap}
    {liquidity liquidity' : List LiquidityChange} {h : Height}
    (hb : ∀ c ∈ all swaps liquidity, c.position.height < h)
    (ha : ∀ c ∈ all swaps' liquidity', h ≤ c.position.height) (address : String) :
    inChainOrder (ofPool (swaps ++ swaps') (liquidity ++ liquidity') address) =
      inChainOrder (ofPool swaps liquidity address) ++
        inChainOrder (ofPool swaps' liquidity' address) := by
  obtain ⟨below, above⟩ := filter_all_append (p := fun c => c.position.height < h)
    (fun c hc => by simpa using hb c hc)
    (fun c hc => by simpa [Ranged.lt_def, Ranged.le_def] using ha c hc)
  rw [inChainOrder_eq_append fun c => c.position.height < h]
  · simp only [ofPool]
    rw [List.filter_comm, below, List.filter_comm, above]
  · intro a _ b _ hpa hpb
    simp only [decide_eq_true_eq, Ranged.lt_def] at *
    omega

theorem mem_ofPool {swaps : List Swap} {liquidity : List LiquidityChange} {address : String}
    {c : PoolChange} :
    c ∈ ofPool swaps liquidity address ↔ c ∈ all swaps liquidity ∧ c.pairAddress = address := by
  rw [ofPool, List.mem_filter, decide_eq_true_eq]

theorem mem_all_append {swaps swaps' : List Swap} {liquidity liquidity' : List LiquidityChange}
    {c : PoolChange} : c ∈ all (swaps ++ swaps') (liquidity ++ liquidity') ↔
      c ∈ all swaps liquidity ∨ c ∈ all swaps' liquidity' := by
  simp only [all, List.map_append, List.mem_append]
  tauto

theorem mem_ofPool_append {swaps swaps' : List Swap} {liquidity liquidity' : List LiquidityChange}
    {address : String} {c : PoolChange} :
    c ∈ ofPool (swaps ++ swaps') (liquidity ++ liquidity') address ↔
      c ∈ ofPool swaps liquidity address ∨ c ∈ ofPool swaps' liquidity' address := by
  rw [mem_ofPool, mem_all_append, mem_ofPool, mem_ofPool, or_and_right]

theorem mem_inChainOrder {changes : List PoolChange} {c : PoolChange} :
    c ∈ inChainOrder changes ↔ c ∈ changes := List.mem_mergeSort

theorem inChainOrder_pairwise (changes : List PoolChange) :
    (inChainOrder changes).Pairwise fun a b => a.position.le b.position :=
  List.pairwise_mergeSort (fun a b c => Position.le_trans a.position b.position c.position)
    (fun a b => Position.le_total a.position b.position) changes

theorem height_le_getLast {changes : List PoolChange} {d : PoolChange}
    (h : (inChainOrder changes).getLast? = some d) :
    d ∈ changes ∧ ∀ c ∈ changes, c.position.height ≤ d.position.height := by
  obtain ⟨hd, hmax⟩ := StableSort.le_getLast_mergeSort
    (fun x y w => Position.le_trans x.position y.position w.position)
    (fun x y => Position.le_total x.position y.position) h
  exact ⟨hd, fun c hc => Position.height_le (hmax c hc)⟩

end PoolChange

end PoolLedger
