import Mathlib.Data.List.Forall2

/-! Sorting keeps the order of equal elements. A sorted list is therefore known
from the order within each class of equal elements, and sorting can be done
piece by piece. -/

namespace PoolLedger

/-- The same elements in another order, in which those of each class stand as before. -/
structure Reordered {α β : Type} [DecidableEq β] (cls : α → β) (xs ys : List α) : Prop where
  perm : xs.Perm ys
  classes : ∀ b, xs.filter (fun a => cls a = b) = ys.filter fun a => cls a = b

theorem Reordered.map {α β γ : Type} [DecidableEq β] {cls : α → β} {cls' : γ → β} {f : α → γ}
    (hcls : ∀ a, cls' (f a) = cls a) {xs ys : List α} (h : Reordered cls xs ys) :
    Reordered cls' (xs.map f) (ys.map f) := by
  have hfilter (b : β) (zs : List α) : (zs.map f).filter (fun a => cls' a = b) =
      (zs.filter fun a => cls a = b).map f := by
    simp only [List.filter_map, Function.comp_def, hcls]
  exact ⟨h.perm.map f, fun b => by rw [hfilter, hfilter, h.classes]⟩

namespace StableSort

variable {α : Type} {le : α → α → Bool}

def same (le : α → α → Bool) (a b : α) : Bool := le a b && le b a

theorem eq_of_classes {l₁ l₂ : List α} (refl : ∀ a, le a a)
    (h₁ : l₁.Pairwise (le · ·)) (h₂ : l₂.Pairwise (le · ·))
    (h : ∀ a, l₁.filter (same le a) = l₂.filter (same le a)) : l₁ = l₂ := by
  induction l₁ generalizing l₂ with
  | nil =>
    cases l₂ with
    | nil => rfl
    | cons b l₂ =>
      have hb := h b
      simp [same, refl] at hb
  | cons a l₁ ih =>
    cases l₂ with
    | nil =>
      have ha := h a
      simp [same, refl] at ha
    | cons b l₂ =>
      obtain ⟨ha₁, ht₁⟩ := List.pairwise_cons.1 h₁
      obtain ⟨hb₂, ht₂⟩ := List.pairwise_cons.1 h₂
      have hab : le a b := by
        have hm : b ∈ (a :: l₁).filter (same le b) := by
          rw [h b]
          simp [same, refl]
        rcases List.mem_cons.1 (List.mem_filter.1 hm).1 with rfl | hm
        · exact refl b
        · exact ha₁ b hm
      have hba : le b a := by
        have hm : a ∈ (b :: l₂).filter (same le a) := by
          rw [← h a]
          simp [same, refl]
        rcases List.mem_cons.1 (List.mem_filter.1 hm).1 with rfl | hm
        · exact refl a
        · exact hb₂ a hm
      -- the heads are of one class, and it starts with each of them
      have heq : a = b := by
        have ha := h a
        rw [List.filter_cons_of_pos (by simp [same, refl]),
          List.filter_cons_of_pos (by simp [same, hab, hba])] at ha
        exact (List.cons.inj ha).1
      subst heq
      rw [ih ht₁ ht₂]
      intro c
      have hc := h c
      simp only [List.filter_cons] at hc
      split at hc
      · exact (List.cons.inj hc).2
      · exact hc

theorem refl_of_total (total : ∀ a b, le a b || le b a) (a : α) : le a a := by
  simpa using total a a

section Sorting

variable (trans : ∀ a b c, le a b → le b c → le a c) (total : ∀ a b, le a b || le b a)
include trans total

theorem filter_same_mergeSort (l : List α) (a : α) :
    (l.mergeSort le).filter (same le a) = l.filter (same le a) := by
  have hc : (l.filter (same le a)).Pairwise (le · ·) := by
    rw [List.pairwise_iff_forall_sublist]
    intro x y hxy
    have hx : same le a x := (List.mem_filter.1 (hxy.subset (by simp))).2
    have hy : same le a y := (List.mem_filter.1 (hxy.subset (by simp))).2
    simp only [same, Bool.and_eq_true] at hx hy
    exact trans x a y hx.2 hy.1
  have hs : (l.filter (same le a)).Sublist ((l.mergeSort le).filter (same le a)) := by
    have := List.sublist_mergeSort trans total hc List.filter_sublist
    simpa using this.filter (same le a)
  exact (hs.eq_of_length ((List.mergeSort_perm l le).symm.filter _).length_eq).symm

/-- A sorted list with the classes of `l` is `l` sorted. -/
theorem eq_mergeSort {l m : List α} (hm : m.Pairwise (le · ·))
    (h : ∀ a, m.filter (same le a) = l.filter (same le a)) : m = l.mergeSort le := by
  apply eq_of_classes (refl_of_total total) hm (List.pairwise_mergeSort trans total l)
  intro a
  rw [h, filter_same_mergeSort trans total]

theorem mergeSort_mergeSort_append (xs ys : List α) :
    (xs.mergeSort le ++ ys).mergeSort le = (xs ++ ys).mergeSort le := by
  apply eq_mergeSort trans total (List.pairwise_mergeSort trans total _)
  intro a
  rw [filter_same_mergeSort trans total, List.filter_append, filter_same_mergeSort trans total,
    List.filter_append]

theorem filter_mergeSort (p : α → Bool) (l : List α) :
    (l.mergeSort le).filter p = (l.filter p).mergeSort le := by
  apply eq_mergeSort trans total ((List.pairwise_mergeSort trans total l).filter p)
  intro a
  rw [List.filter_comm, filter_same_mergeSort trans total, List.filter_comm]

theorem mergeSort_eq_append (p : α → Bool) (l : List α)
    (h : ∀ a ∈ l, ∀ b ∈ l, p a → ¬ p b → ¬ le b a) :
    l.mergeSort le = (l.filter p).mergeSort le ++ (l.filter fun a => !p a).mergeSort le := by
  symm
  apply eq_mergeSort trans total
  · rw [List.pairwise_append]
    refine ⟨List.pairwise_mergeSort trans total _, List.pairwise_mergeSort trans total _, ?_⟩
    intro a ha b hb
    obtain ⟨ha, hpa⟩ := List.mem_filter.1 (List.mem_mergeSort.1 ha)
    obtain ⟨hb, hpb⟩ := List.mem_filter.1 (List.mem_mergeSort.1 hb)
    have := total a b
    simpa [h a ha b hb hpa (by simpa using hpb)] using this
  · intro c
    rw [List.filter_append, filter_same_mergeSort trans total,
      filter_same_mergeSort trans total, List.filter_filter, List.filter_filter]
    -- a class lies on one side of `p`
    by_cases hc : ∃ a ∈ l, same le c a ∧ p a
    · obtain ⟨a, ha, hca, hpa⟩ := hc
      have side : ∀ b ∈ l, same le c b → p b := by
        intro b hb hcb
        by_contra hpb
        simp only [same, Bool.and_eq_true] at hca hcb
        exact h a ha b hb hpa hpb (trans b c a hcb.2 hca.1)
      have hl : l.filter (fun b => same le c b && p b) = l.filter (same le c) := by
        apply List.filter_congr
        intro b hb
        by_cases hcb : same le c b <;> simp [hcb]
        exact side b hb hcb
      have hr : l.filter (fun b => same le c b && !p b) = [] := by
        rw [List.filter_eq_nil_iff]
        intro b hb hcb
        simp only [Bool.and_eq_true, Bool.not_eq_true'] at hcb
        simp [side b hb hcb.1] at hcb
      rw [hl, hr, List.append_nil]
    · have side : ∀ b ∈ l, same le c b → ¬ p b := fun b hb hcb hpb => hc ⟨b, hb, hcb, hpb⟩
      have hl : l.filter (fun b => same le c b && p b) = [] := by
        rw [List.filter_eq_nil_iff]
        intro b hb hcb
        simp only [Bool.and_eq_true] at hcb
        exact side b hb hcb.1 hcb.2
      have hr : l.filter (fun b => same le c b && !p b) = l.filter (same le c) := by
        apply List.filter_congr
        intro b hb
        by_cases hcb : same le c b <;> simp [hcb]
        simpa using side b hb hcb
      rw [hl, hr, List.nil_append]

theorem reordered_mergeSort {β : Type} [DecidableEq β] {cls : α → β}
    (hcls : ∀ a b, same le a b = true ↔ cls b = cls a) (l : List α) :
    Reordered cls (l.mergeSort le) l := by
  refine ⟨List.mergeSort_perm l le, fun c => ?_⟩
  by_cases hc : ∃ a ∈ l, cls a = c
  · obtain ⟨a, -, rfl⟩ := hc
    have hsame : same le a = fun b => decide (cls b = cls a) := by
      funext b
      rw [Bool.eq_iff_iff, hcls, decide_eq_true_eq]
    rw [← hsame, filter_same_mergeSort trans total]
  · have hnone : ∀ a ∈ l, ¬ cls a = c := fun a ha h => hc ⟨a, ha, h⟩
    rw [List.filter_eq_nil_iff.2 (by simpa using hnone),
      List.filter_eq_nil_iff.2 (by simpa using hnone)]

theorem le_getLast_mergeSort {l : List α} {z : α} (h : (l.mergeSort le).getLast? = some z) :
    z ∈ l ∧ ∀ a ∈ l, le a z := by
  obtain ⟨front, hf⟩ := List.getLast?_eq_some_iff.1 h
  have hs := List.pairwise_mergeSort trans total l
  rw [hf, List.pairwise_append] at hs
  have hz : z ∈ l.mergeSort le := by simp [hf]
  refine ⟨List.mem_mergeSort.1 hz, fun a ha => ?_⟩
  have ha' : a ∈ l.mergeSort le := List.mem_mergeSort.2 ha
  rw [hf, List.mem_append, List.mem_singleton] at ha'
  rcases ha' with ha' | rfl
  · exact hs.2.2 a ha' z (by simp)
  · exact refl_of_total total a

end Sorting

theorem forall₂_mergeSort {β : Type} {R : α → β → Prop} {le' : β → β → Bool}
    (hle : ∀ x y x' y', R x y → R x' y' → le x x' = le' y y') {xs : List α} {ys : List β}
    (h : List.Forall₂ R xs ys) : List.Forall₂ R (xs.mergeSort le) (ys.mergeSort le') := by
  obtain ⟨hlength, hpairs⟩ := List.forall₂_iff_zip.1 h
  let pairs := (xs.zip ys).mergeSort fun p q => le p.1 q.1
  have hfst : pairs.map Prod.fst = xs.mergeSort le := by
    rw [List.map_mergeSort (s := le) fun _ _ _ _ => rfl, List.map_fst_zip (Nat.le_of_eq hlength)]
  have hsnd : pairs.map Prod.snd = ys.mergeSort le' := by
    rw [List.map_mergeSort (s := le') fun p hp q hq => hle _ _ _ _ (hpairs hp) (hpairs hq),
      List.map_snd_zip (Nat.le_of_eq hlength.symm)]
  rw [← hfst, ← hsnd, List.forall₂_map_left_iff, List.forall₂_map_right_iff, List.forall₂_same]
  exact fun p hp => hpairs (List.mem_mergeSort.1 hp)

end StableSort

end PoolLedger
