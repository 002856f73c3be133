import Mathlib.Data.List.Nodup
import PoolLedger.Proofs.Distinct

/-! The last report of each key. What is kept of a list of reports are the positions behind
which their key does not come again. A walk from the end finds them in one pass, if it
remembers the keys that it has met. -/

namespace PoolLedger

variable {α : Type} [Keyed α]

def LastOfKey (xs : List α) (i : Fin xs.length) : Prop :=
  ∀ j, i < j → Keyed.uniqueKey xs[j] ≠ Keyed.uniqueKey xs[i]

instance (xs : List α) (i : Fin xs.length) : Decidable (LastOfKey xs i) :=
  Nat.decidableForallFin fun j => i < j → Keyed.uniqueKey xs[j] ≠ Keyed.uniqueKey xs[i]

theorem lastOfKey_zero {a : α} {rest : List α} : LastOfKey (a :: rest) 0 ↔
    ¬ rest.any fun b => Keyed.uniqueKey b = Keyed.uniqueKey a := by
  simp only [List.any_eq_true, decide_eq_true_eq, not_exists, not_and]
  constructor
  · intro h b hb
    obtain ⟨j, hj, rfl⟩ := List.mem_iff_getElem.1 hb
    exact h ⟨j + 1, Nat.succ_lt_succ hj⟩ (Nat.succ_pos j)
  · rintro h ⟨j, hj⟩ hlt
    cases j with
    | zero => exact absurd hlt (Nat.lt_irrefl 0)
    | succ j => exact h _ (List.getElem_mem (Nat.lt_of_succ_lt_succ hj))

theorem lastOfKey_succ {a : α} {rest : List α} {i : Fin rest.length} :
    LastOfKey (a :: rest) i.succ ↔ LastOfKey rest i := by
  constructor
  · exact fun h j hlt => h j.succ (Fin.succ_lt_succ_iff.2 hlt)
  · rintro h ⟨j, hj⟩ hlt
    cases j with
    | zero => exact absurd hlt (Nat.not_lt_zero _)
    | succ j => exact h ⟨j, Nat.lt_of_succ_lt_succ hj⟩ (Nat.lt_of_succ_lt_succ hlt)

theorem keepLast_eq_positions (xs : List α) :
    keepLast xs = ((List.finRange xs.length).filter fun i => LastOfKey xs i).map xs.get := by
  induction xs with
  | nil => rfl
  | cons a rest ih =>
    have htail : ((List.finRange rest.length).map Fin.succ).filter
        (fun i => LastOfKey (a :: rest) i) =
        ((List.finRange rest.length).filter fun i => LastOfKey rest i).map Fin.succ := by
      simp only [List.filter_map, Function.comp_def, lastOfKey_succ]
    have hpositions : List.finRange (a :: rest).length =
        0 :: (List.finRange rest.length).map Fin.succ := List.finRange_succ
    have hget : (a :: rest).get ∘ Fin.succ = rest.get := rfl
    rw [keepLast, hpositions, List.filter_cons, htail]
    simp only [decide_eq_true_eq, lastOfKey_zero, ite_not]
    split
    · rw [List.map_map, hget, ih]
    · rw [List.map_cons, List.map_map, hget, ih]
      rfl

/-- The reports whose key is met for the first time, `seen` being the keys met before. -/
def unseen (seen : List String) : List α → List α
  | [] => []
  | a :: rest =>
    if Keyed.uniqueKey a ∈ seen then unseen seen rest
    else a :: unseen (Keyed.uniqueKey a :: seen) rest

theorem unseen_concat (seen : List String) (xs : List α) (a : α) :
    unseen seen (xs ++ [a]) =
      if Keyed.uniqueKey a ∈ xs.map Keyed.uniqueKey ++ seen then unseen seen xs
      else unseen seen xs ++ [a] := by
  induction xs generalizing seen with
  | nil => rfl
  | cons x xs ih =>
    rw [List.cons_append, unseen, unseen, ih, ih, List.map_cons, List.cons_append]
    by_cases hx : Keyed.uniqueKey x ∈ seen
    · -- a key met again adds nothing to the keys met
      have hmet : Keyed.uniqueKey a ∈ Keyed.uniqueKey x :: (xs.map Keyed.uniqueKey ++ seen) ↔
          Keyed.uniqueKey a ∈ xs.map Keyed.uniqueKey ++ seen := by
        rw [List.mem_cons, or_iff_right_of_imp]
        exact fun h => h ▸ List.mem_append_right _ hx
      simp only [if_pos hx, hmet]
    · -- a new key joins those the rest of the walk starts from
      have hmet : Keyed.uniqueKey a ∈ Keyed.uniqueKey x :: (xs.map Keyed.uniqueKey ++ seen) ↔
          Keyed.uniqueKey a ∈ xs.map Keyed.uniqueKey ++ Keyed.uniqueKey x :: seen :=
        List.perm_middle.symm.mem_iff
      simp only [if_neg hx, hmet]
      split <;> rfl

theorem keepLast_eq_walk (xs : List α) : keepLast xs = (unseen [] xs.reverse).reverse := by
  -- from the end of the list, so that the walk has just met what stands behind the next report
  induction xs with
  | nil => rfl
  | cons a rest ih =>
    have hmet : (rest.any fun b => Keyed.uniqueKey b = Keyed.uniqueKey a) = true ↔
        Keyed.uniqueKey a ∈ rest.reverse.map Keyed.uniqueKey ++ [] := by
      simp
    rw [List.reverse_cons, unseen_concat, keepLast, ih]
    simp only [hmet]
    split
    · rfl
    · rw [List.reverse_append, List.reverse_singleton, List.singleton_append]

theorem mem_keys_keepLast {k : String} {xs : List α} :
    k ∈ (keepLast xs).map Keyed.uniqueKey ↔ k ∈ xs.map Keyed.uniqueKey := by
  constructor
  · exact fun h => ((keepLast_sublist xs).map _).subset h
  · intro h
    obtain ⟨a, ha, rfl⟩ := List.mem_map.1 h
    obtain ⟨b, hb, hkey⟩ := exists_mem_keepLast ha
    exact List.mem_map.2 ⟨b, hb, hkey⟩

theorem keepLast_keepLast (xs : List α) : keepLast (keepLast xs) = keepLast xs :=
  keepLast_eq_self (keepLast_pairwise xs)

theorem keepLast_append_keys (xs ys : List α) :
    keepLast (xs ++ ys) =
      ((keepLast xs).filter fun a => Keyed.uniqueKey a ∉ ys.map Keyed.uniqueKey) ++
        keepLast ys := by
  have hbehind (a : α) : (!ys.any fun b => Keyed.uniqueKey b = Keyed.uniqueKey a) =
      decide (Keyed.uniqueKey a ∉ ys.map Keyed.uniqueKey) := by
    rw [Bool.eq_iff_iff]
    simp
  rw [keepLast_append]
  simp only [hbehind]

/-- Of the reports of a list the last of each key are kept and no others, in their order, as a
walk from its end meets them; and a list behind another takes its keys out of it. -/
theorem last_reports_kept (xs ys : List α) :
    keepLast xs = ((List.finRange xs.length).filter fun i => LastOfKey xs i).map xs.get ∧
      keepLast xs = (unseen [] xs.reverse).reverse ∧
      (keepLast xs).Sublist xs ∧
      ((keepLast xs).map Keyed.uniqueKey).Nodup ∧
      (∀ k, k ∈ (keepLast xs).map Keyed.uniqueKey ↔ k ∈ xs.map Keyed.uniqueKey) ∧
      keepLast (keepLast xs) = keepLast xs ∧
      keepLast (xs ++ ys) =
        ((keepLast xs).filter fun a => Keyed.uniqueKey a ∉ ys.map Keyed.uniqueKey) ++
          keepLast ys :=
  ⟨keepLast_eq_positions xs, keepLast_eq_walk xs, keepLast_sublist xs,
    List.pairwise_map.2 (keepLast_pairwise xs), fun _ => mem_keys_keepLast, keepLast_keepLast xs,
    keepLast_append_keys xs ys⟩

end PoolLedger
