import PoolLedger.Bucket
import PoolLedger.Distinct
import PoolLedger.Proofs.Traverse

/-! Of the reports with one key the last is kept. Reports that share no key with
later ones can be thinned out on their own, and moving times into buckets does
not touch the keys. -/

namespace PoolLedger

variable {α : Type}

section Keys

variable [Keyed α]

theorem keepLast_sublist (xs : List α) : (keepLast xs).Sublist xs := by
  induction xs with
  | nil => exact List.Sublist.slnil
  | cons a rest ih =>
    unfold keepLast
    split
    · exact ih.cons a
    · exact ih.cons_cons a

theorem mem_of_mem_keepLast {a : α} {xs : List α} (h : a ∈ keepLast xs) : a ∈ xs :=
  (keepLast_sublist xs).subset h

theorem keepLast_pairwise (xs : List α) :
    (keepLast xs).Pairwise fun a b => Keyed.uniqueKey a ≠ Keyed.uniqueKey b := by
  induction xs with
  | nil => exact List.Pairwise.nil
  | cons a rest ih =>
    unfold keepLast
    split
    · exact ih
    · rename_i h
      simp only [List.any_eq_true, decide_eq_true_eq, not_exists, not_and] at h
      refine List.pairwise_cons.2 ⟨fun b hb hab => ?_, ih⟩
      exact h b (mem_of_mem_keepLast hb) hab.symm

/-- What comes later takes the place of what came before under its key. -/
theorem keepLast_append (xs ys : List α) :
    keepLast (xs ++ ys) =
      (keepLast xs).filter (fun a => !ys.any fun b => Keyed.uniqueKey b = Keyed.uniqueKey a) ++
        keepLast ys := by
  induction xs with
  | nil => rfl
  | cons a rest ih =>
    rw [List.cons_append, keepLast, keepLast, List.any_append]
    by_cases hr : rest.any fun b => Keyed.uniqueKey b = Keyed.uniqueKey a
    · rw [if_pos (by simp [hr]), if_pos hr, ih]
    · by_cases hy : ys.any fun b => Keyed.uniqueKey b = Keyed.uniqueKey a
      · rw [if_pos (by simp [hy]), if_neg hr, ih, List.filter_cons_of_neg (by simp [hy])]
      · rw [if_neg (by simp [hr, hy]), if_neg hr, ih, List.filter_cons_of_pos (by simp [hy]),
          List.cons_append]

theorem keepLast_append_of_disjoint {xs ys : List α}
    (h : ∀ a ∈ xs, ∀ b ∈ ys, Keyed.uniqueKey a ≠ Keyed.uniqueKey b) :
    keepLast (xs ++ ys) = keepLast xs ++ keepLast ys := by
  rw [keepLast_append, List.filter_eq_self.2]
  intro a ha
  simp only [Bool.not_eq_true', List.any_eq_false, decide_eq_true_eq]
  exact fun b hb hab => h a (mem_of_mem_keepLast ha) b hb hab.symm

theorem keepLast_map {β : Type} [Keyed β] {f : α → β}
    (hf : ∀ a, Keyed.uniqueKey (f a) = Keyed.uniqueKey a) (xs : List α) :
    keepLast (xs.map f) = (keepLast xs).map f := by
  induction xs with
  | nil => rfl
  | cons a rest ih =>
    have hany : ((rest.map f).any fun b => Keyed.uniqueKey b = Keyed.uniqueKey (f a)) =
        rest.any fun b => Keyed.uniqueKey b = Keyed.uniqueKey a := by
      rw [List.any_map, hf]
      exact congrArg rest.any (funext fun b => by rw [Function.comp, hf])
    rw [List.map_cons, keepLast, keepLast, hany, ih]
    split
    · rfl
    · rw [List.map_cons]

theorem keepLast_eq_self {xs : List α}
    (h : xs.Pairwise fun a b => Keyed.uniqueKey a ≠ Keyed.uniqueKey b) : keepLast xs = xs := by
  induction xs with
  | nil => rfl
  | cons a rest ih =>
    obtain ⟨hhead, hrest⟩ := List.pairwise_cons.1 h
    have hnone : ¬ rest.any fun b => Keyed.uniqueKey b = Keyed.uniqueKey a := by
      simpa using fun b hb hab => hhead b hb hab.symm
    rw [keepLast, if_neg hnone, ih hrest]

theorem exists_mem_keepLast {a : α} {xs : List α} (h : a ∈ xs) :
    ∃ b ∈ keepLast xs, Keyed.uniqueKey b = Keyed.uniqueKey a := by
  induction xs generalizing a with
  | nil => cases h
  | cons c rest ih =>
    unfold keepLast
    rcases List.mem_cons.1 h with rfl | h
    · split
      · rename_i hany
        obtain ⟨b, hb, hkey⟩ := List.any_eq_true.1 hany
        obtain ⟨d, hd, hdb⟩ := ih hb
        exact ⟨d, hd, hdb.trans (of_decide_eq_true hkey)⟩
      · exact ⟨a, List.mem_cons_self, rfl⟩
    · obtain ⟨b, hb, hkey⟩ := ih h
      split
      · exact ⟨b, hb, hkey⟩
      · exact ⟨b, List.mem_cons_of_mem c hb, hkey⟩

theorem keepLast_filter {p : α → Bool} {xs : List α}
    (h : ∀ a ∈ xs, ∀ b ∈ xs, p a → ¬ p b → Keyed.uniqueKey a ≠ Keyed.uniqueKey b) :
    (keepLast xs).filter p = keepLast (xs.filter p) := by
  induction xs with
  | nil => rfl
  | cons a rest ih =>
    have ih := ih fun b hb c hc => h b (List.mem_cons_of_mem a hb) c (List.mem_cons_of_mem a hc)
    by_cases hp : p a
    · have hany : ((rest.filter p).any fun b => Keyed.uniqueKey b = Keyed.uniqueKey a) =
          rest.any fun b => Keyed.uniqueKey b = Keyed.uniqueKey a := by
        rw [List.any_filter, Bool.eq_iff_iff, List.any_eq_true, List.any_eq_true]
        refine exists_congr fun b => and_congr_right fun hb => ?_
        rw [Bool.and_eq_true, decide_eq_true_eq]
        refine and_iff_right_of_imp fun hab => ?_
        exact Decidable.byContradiction fun hpb =>
          h a List.mem_cons_self b (List.mem_cons_of_mem a hb) hp hpb hab.symm
      rw [List.filter_cons_of_pos hp, keepLast, keepLast, hany]
      split
      · exact ih
      · rw [List.filter_cons_of_pos hp, ih]
    · rw [List.filter_cons_of_neg hp, keepLast]
      split
      · exact ih
      · rw [List.filter_cons_of_neg hp, ih]

end Keys

section Bucketed

variable [Timed α] {width : Timestamp}

theorem bucketed_append {xs xs' ys ys' : List α} (hx : bucketed? width xs = some xs')
    (hy : bucketed? width ys = some ys') : bucketed? width (xs ++ ys) = some (xs' ++ ys') := by
  rw [bucketed?, Traverse.mapM_eq_some] at *
  simp only [List.map_append, hx, hy]

theorem bucketed_map {β : Type} [Timed β] {f : α → β}
    (htime : ∀ a, Timed.timestamp (f a) = Timed.timestamp a)
    (hset : ∀ a t, Timed.setTimestamp (f a) t = f (Timed.setTimestamp a t)) (xs : List α) :
    bucketed? width (xs.map f) = (bucketed? width xs).map (List.map f) := by
  unfold bucketed?
  induction xs with
  | nil => rfl
  | cons a rest ih =>
    rw [List.map_cons, List.mapM_cons, List.mapM_cons, ih, htime]
    cases bucketStart? width (Timed.timestamp a) with
    | none => rfl
    | some t =>
      cases rest.mapM fun e => (bucketStart? width (Timed.timestamp e)).map (Timed.setTimestamp e) <;>
        simp [hset]

theorem bucketed_filter {p : α → Bool} (hp : ∀ a t, p (Timed.setTimestamp a t) = p a)
    {xs xs' : List α} (h : bucketed? width xs = some xs') :
    bucketed? width (xs.filter p) = some (xs'.filter p) := by
  refine Traverse.mapM_filter (fun a b hab => ?_) h
  obtain ⟨t, -, rfl⟩ := Option.map_eq_some_iff.1 hab
  exact hp a t

theorem mem_bucketed {xs xs' : List α} (h : bucketed? width xs = some xs') {b : α} :
    b ∈ xs' ↔ ∃ a ∈ xs, ∃ t, bucketStart? width (Timed.timestamp a) = some t ∧
      Timed.setTimestamp a t = b := by
  rw [Traverse.mem_of_mapM_some h]
  simp only [Option.map_eq_some_iff]

theorem bucketStart?_mono {t t' start start' : Timestamp} (h : bucketStart? width t = some start)
    (h' : bucketStart? width t' = some start') (hle : t ≤ t') : start ≤ start' := by
  rw [Ranged.le_def] at hle ⊢
  unfold bucketStart? at h h'
  split at h
  · rename_i hwidth
    rw [if_pos hwidth] at h'
    cases h
    cases h'
    exact hle
  · rename_i hwidth
    rw [if_neg hwidth] at h'
    rw [Ranged.ofInt?_eq_some_iff] at h h'
    have hwidth : 0 < width.val := Int.not_le.1 hwidth
    have hmul := Int.mul_le_mul_of_nonneg_left (Int.ediv_le_ediv hwidth hle) (Int.le_of_lt hwidth)
    have hsplit := Int.emod_add_mul_ediv t.val width.val
    have hsplit' := Int.emod_add_mul_ediv t'.val width.val
    omega

theorem bucketStart?_eq_some_iff {t start : Timestamp} (hwidth : 0 < width.val) :
    bucketStart? width t = some start ↔
      width.val ∣ start.val ∧ start ≤ t ∧ t.val < start.val + width.val := by
  have hrest := Int.emod_nonneg t.val (by omega : width.val ≠ 0)
  have hlt := Int.emod_lt_of_pos t.val hwidth
  rw [bucketStart?, if_neg (by omega), Ranged.ofInt?_eq_some_iff, Ranged.le_def]
  constructor
  · intro h
    exact ⟨h ▸ Int.dvd_self_sub_emod, by omega, by omega⟩
  · rintro ⟨hdvd, hle, hend⟩
    obtain ⟨n, hn⟩ := hdvd
    have hmod : t.val % width.val = t.val - start.val := by
      rw [← Int.emod_eq_of_lt (a := t.val - start.val) (b := width.val) (by omega) (by omega), hn,
        Int.sub_mul_emod_self_left]
    omega

theorem le_start_iff {n start t width : Int} (hn : width ∣ n) (hstart : width ∣ start)
    (hle : start ≤ t) (hend : t < start + width) : n ≤ start ↔ n ≤ t := by
  constructor
  · exact fun h => Int.le_trans h hle
  · intro h
    refine Int.not_lt.1 fun hlt => ?_
    have hgap := Int.le_of_dvd (by omega) (Int.dvd_sub hn hstart)
    omega

theorem bucketStart?_nonneg {t start : Timestamp} (h : bucketStart? width t = some start)
    (ht : 0 ≤ t.val) : 0 ≤ start.val := by
  by_cases hwidth : width.val ≤ 0
  · rw [bucketStart?, if_pos hwidth, Option.some.injEq] at h
    exact h ▸ ht
  · obtain ⟨hstart, hle, hend⟩ := (bucketStart?_eq_some_iff (Int.not_le.1 hwidth)).1 h
    exact (le_start_iff (Int.dvd_zero _) hstart hle hend).2 ht

theorem bucketStart?_nested {narrow t start : Timestamp} (hwidth : 0 < width.val)
    (hdvd : narrow.val ∣ width.val) (h : bucketStart? narrow t = some start) (u : Timestamp) :
    bucketStart? width start = some u ↔ bucketStart? width t = some u := by
  by_cases hnarrow : narrow.val ≤ 0
  · rw [bucketStart?, if_pos hnarrow, Option.some.injEq] at h
    rw [h]
  · obtain ⟨hstart, hle, hend⟩ := (bucketStart?_eq_some_iff (Int.not_le.1 hnarrow)).1 h
    rw [bucketStart?_eq_some_iff hwidth, bucketStart?_eq_some_iff hwidth]
    refine and_congr_right fun hu => ?_
    -- both ends of the wide bucket are starts of narrow ones
    have hlo := Int.dvd_trans hdvd hu
    rw [Ranged.le_def, Ranged.le_def, le_start_iff hlo hstart hle hend, ← Int.not_le, ← Int.not_le,
      le_start_iff (Int.dvd_add hlo hdvd) hstart hle hend]

theorem exists_bucketStart {t : Timestamp} (hwidth : 0 < width.val) (ht : 0 ≤ t.val) :
    ∃ start, bucketStart? width t = some start := by
  have hrest := Int.emod_nonneg t.val (by omega : width.val ≠ 0)
  have hsplit := Int.emod_add_mul_ediv t.val width.val
  have hstart := Int.mul_nonneg (Int.le_of_lt hwidth) (Int.ediv_nonneg ht (Int.le_of_lt hwidth))
  have := t.le_hi
  refine ⟨⟨t.val - t.val % width.val, by omega, by omega⟩, ?_⟩
  rw [bucketStart?, if_neg (by omega), Ranged.ofInt?_eq_some_iff]

theorem exists_bucketed (hwidth : 0 < width.val) {xs : List α}
    (h : ∀ a ∈ xs, 0 ≤ (Timed.timestamp a).val) : ∃ xs', bucketed? width xs = some xs' := by
  refine Traverse.mapM_isSome fun a ha => ?_
  obtain ⟨start, hstart⟩ := exists_bucketStart hwidth (h a ha)
  exact ⟨Timed.setTimestamp a start, by rw [hstart, Option.map_some]⟩

end Bucketed

end PoolLedger
