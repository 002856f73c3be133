import Mathlib.Data.List.Nodup
import PoolLedger.Ascending
import PoolLedger.Ranged

/-! Ascending lists. Such a list is known from its elements, so the distinct elements of a
list in ascending order do not depend on the order in which they are given. -/

namespace PoolLedger

namespace Ascending

variable {α : Type} {lt : α → α → Bool}

structure Linear (lt : α → α → Bool) : Prop where
  irrefl : ∀ a, ¬ lt a a
  trans : ∀ a b c, lt a b → lt b c → lt a c
  total : ∀ a b, a ≠ b → ¬ lt a b → lt b a

theorem Linear.nodup (h : Linear lt) {xs : List α} (hs : xs.Pairwise (lt · ·)) : xs.Nodup := by
  refine hs.imp fun {a b} hab he => ?_
  exact h.irrefl b (he ▸ hab)

theorem Linear.eq_of_mem_iff (h : Linear lt) {xs ys : List α} (hx : xs.Pairwise (lt · ·))
    (hy : ys.Pairwise (lt · ·)) (hmem : ∀ a, a ∈ xs ↔ a ∈ ys) : xs = ys := by
  have hperm : xs.Perm ys := (List.perm_ext_iff_of_nodup (h.nodup hx) (h.nodup hy)).2 hmem
  refine List.Perm.eq_of_pairwise (fun a b _ _ hab hba => ?_) hx hy hperm
  exact absurd (h.trans a b a hab hba) (h.irrefl a)

variable [DecidableEq α]

theorem insert_pairwise (h : Linear lt) (a : α) {xs : List α} (hs : xs.Pairwise (lt · ·)) :
    (insert lt a xs).Pairwise (lt · ·) := by
  induction xs with
  | nil => exact List.pairwise_singleton _ a
  | cons b rest ih =>
    obtain ⟨hb, hrest⟩ := List.pairwise_cons.1 hs
    unfold insert
    split
    · exact hs
    · rename_i hne
      split
      · rename_i hab
        refine List.pairwise_cons.2 ⟨fun c hc => ?_, hs⟩
        rcases List.mem_cons.1 hc with rfl | hc
        · exact hab
        · exact h.trans a b c hab (hb c hc)
      · rename_i hab
        refine List.pairwise_cons.2 ⟨fun c hc => ?_, ih hrest⟩
        rcases mem_insert.1 hc with rfl | hc
        · exact h.total c b hne hab
        · exact hb c hc

theorem ofList_pairwise (h : Linear lt) (xs : List α) : (ofList lt xs).Pairwise (lt · ·) := by
  induction xs with
  | nil => exact List.Pairwise.nil
  | cons a rest ih => exact insert_pairwise h a ih

theorem ofList_congr (h : Linear lt) {xs ys : List α} (hmem : ∀ a, a ∈ xs ↔ a ∈ ys) :
    ofList lt xs = ofList lt ys :=
  h.eq_of_mem_iff (ofList_pairwise h xs) (ofList_pairwise h ys) fun a => by
    rw [mem_ofList, mem_ofList, hmem]

theorem ofList_filter (h : Linear lt) (p : α → Bool) (xs : List α) :
    (ofList lt xs).filter p = ofList lt (xs.filter p) :=
  h.eq_of_mem_iff ((ofList_pairwise h xs).filter p) (ofList_pairwise h _) fun a => by
    rw [List.mem_filter, mem_ofList, mem_ofList, List.mem_filter]

section Lasts

variable {β : Type} {lt : β → β → Bool} [DecidableEq β] {f : α → β} {xs : List α}

omit [DecidableEq α] in
theorem find_reverse_eq_some {t : β} {x : α} :
    xs.reverse.find? (fun y => f y = t) = some x ↔
      f x = t ∧ ∃ before later, xs = before ++ x :: later ∧ ∀ y ∈ later, f y ≠ t := by
  rw [List.find?_eq_some_iff_append, decide_eq_true_eq]
  refine and_congr_right fun _ => ?_
  constructor
  · rintro ⟨as, bs, hsplit, hlast⟩
    rw [List.reverse_eq_iff, List.reverse_append, List.reverse_cons, List.append_assoc] at hsplit
    exact ⟨bs.reverse, as.reverse, hsplit, fun y hy => by
      simpa using hlast y (List.mem_reverse.1 hy)⟩
  · rintro ⟨before, later, rfl, hlast⟩
    exact ⟨later.reverse, before.reverse, by simp, fun y hy => by
      simpa using hlast y (List.mem_reverse.1 hy)⟩

omit [DecidableEq α] in
theorem mem_lasts {x : α} :
    x ∈ (ofList lt (xs.map f)).filterMap (fun t => xs.reverse.find? fun y => f y = t) ↔
      ∃ before later, xs = before ++ x :: later ∧ ∀ y ∈ later, f y ≠ f x := by
  simp only [List.mem_filterMap, mem_ofList, List.mem_map, find_reverse_eq_some]
  constructor
  · rintro ⟨t, -, rfl, hsplit⟩
    exact hsplit
  · intro hsplit
    obtain ⟨before, later, hxs, -⟩ := id hsplit
    exact ⟨f x, ⟨x, by simp [hxs], rfl⟩, rfl, hsplit⟩

omit [DecidableEq α] in
theorem lasts_pairwise (h : Linear lt) :
    ((ofList lt (xs.map f)).filterMap fun t => xs.reverse.find? fun y => f y = t).Pairwise
      fun a b => lt (f a) (f b) := by
  rw [List.pairwise_filterMap]
  refine (ofList_pairwise h _).imp fun {t u} htu a ha b hb => ?_
  rw [(find_reverse_eq_some.1 ha).1, (find_reverse_eq_some.1 hb).1]
  exact htu

omit [DecidableEq α] in
theorem exists_mem_lasts {y : α} (hy : y ∈ xs) :
    ∃ x ∈ (ofList lt (xs.map f)).filterMap fun t => xs.reverse.find? fun y => f y = t,
      f x = f y := by
  cases hf : xs.reverse.find? fun x => f x = f y with
  | none => simpa using List.find?_eq_none.1 hf y (List.mem_reverse.2 hy)
  | some x =>
    exact ⟨x, List.mem_filterMap.2 ⟨f y, mem_ofList.2 (List.mem_map_of_mem hy), hf⟩,
      (find_reverse_eq_some.1 hf).1⟩

end Lasts

end Ascending

theorem Ranged.linear {lo hi : Int} : Ascending.Linear fun a b : Ranged lo hi => a < b where
  irrefl a := by simp [Ranged.lt_def]
  trans a b c := by
    simp only [Ranged.lt_def, decide_eq_true_eq]
    exact Int.lt_trans
  total a b hne := by
    rw [Ne, Ranged.ext_iff] at hne
    simp only [Ranged.lt_def, decide_eq_true_eq]
    omega

theorem String.lt_of_ne {a b : String} (hne : a ≠ b) (h : ¬ a < b) : b < a := by
  by_contra hba
  exact hne (String.le_antisymm (String.not_lt.1 hba) (String.not_lt.1 h))

theorem String.linear : Ascending.Linear fun a b : String => a < b where
  irrefl a := by simp
  trans a b c := by simpa using String.lt_trans
  total a b := by simpa using String.lt_of_ne

end PoolLedger
