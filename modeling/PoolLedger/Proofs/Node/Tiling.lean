import PoolLedger.Node.Search

/-! Windows tile the chain. The windows of one fetch follow one another without
gap or overlap, and the next fetch goes on where they end. So all windows that a
run of fetches searches are together the heights from the first offset up to
the last one. -/

namespace PoolLedger

namespace Window

def heights (w : Window) : List Nat := List.range' w.first.toNat (w.last.toNat + 1 - w.first.toNat)

end Window

theorem Ranged.toNat_val {hi : Int} (a : Ranged 0 hi) : (a.toNat : Int) = a.val :=
  Int.toNat_of_nonneg a.lo_le

/-- The height after the last window: as many heights on as the windows can hold,
but not past the latest one. -/
def afterWindows (offset latest limit : Height) (count : Nat) : Int :=
  if latest < offset then offset.val else min (latest.val + 1) (offset.val + limit.val * count)

section Windows

variable {offset latest limit : Height} {count : Nat}

theorem windows_of_lt (h : latest < offset) : windows offset latest limit count = [] := by
  cases count with
  | zero => rfl
  | succ count => rw [windows, if_pos h]

theorem firstWindow_val (offset : Height) (hlatest : latest.val < 18446744073709551615)
    (hlimit : 1 ≤ limit.val) :
    (((offset.satAdd limit).satSub 1).smaller latest).val =
        min (offset.val + limit.val - 1) latest.val ∧
      ((((offset.satAdd limit).satSub 1).smaller latest).satAdd 1).val =
        min (offset.val + limit.val) (latest.val + 1) := by
  have := offset.lo_le
  have := latest.lo_le
  have hlast : (((offset.satAdd limit).satSub 1).smaller latest).val =
      min (offset.val + limit.val - 1) latest.val := by
    simp only [Ranged.smaller, Ranged.satSub, Ranged.satAdd, Height.one_val]
    split <;> simp only [Ranged.pull_val] at * <;> omega
  refine ⟨hlast, ?_⟩
  rw [Ranged.satAdd, Ranged.pull_val, hlast, Height.one_val]
  omega

theorem windows_length : (windows offset latest limit count).length ≤ count := by
  induction count generalizing offset with
  | zero => simp [windows]
  | succ count ih =>
    rw [windows]
    split
    · simp
    · simpa using ih

theorem afterWindows_succ (hlatest : latest.val < 18446744073709551615) (hlimit : 1 ≤ limit.val)
    (h : ¬ latest < offset) :
    afterWindows offset latest limit (count + 1) =
      afterWindows ((((offset.satAdd limit).satSub 1).smaller latest).satAdd 1) latest limit
        count := by
  obtain ⟨-, hnext⟩ := firstWindow_val offset hlatest hlimit
  have hmul : limit.val * ((count + 1 : Nat) : Int) = limit.val * count + limit.val := by
    rw [Int.natCast_succ, Int.mul_add, Int.mul_one]
  have hnonneg : 0 ≤ limit.val * (count : Int) := Int.mul_nonneg limit.lo_le (Int.natCast_nonneg _)
  have hoffset : offset.val ≤ latest.val := Int.not_lt.1 h
  simp only [afterWindows, hmul, Ranged.lt_def, hnext]
  split <;> omega

theorem mem_windows (hlatest : latest.val < 18446744073709551615) (hlimit : 1 ≤ limit.val)
    {w : Window} (hw : w ∈ windows offset latest limit count) :
    w.first ≤ w.last ∧ w.last ≤ latest ∧ w.last.val - w.first.val + 1 ≤ limit.val := by
  induction count generalizing offset with
  | zero => cases hw
  | succ count ih =>
    rw [windows] at hw
    split at hw
    · cases hw
    · rename_i h
      rcases List.mem_cons.1 hw with rfl | hw
      · obtain ⟨hlast, -⟩ := firstWindow_val offset hlatest hlimit
        simp only [Ranged.le_def, Ranged.lt_def, hlast] at *
        omega
      · exact ih hw

theorem windows_heights (offset : Height) (count : Nat)
    (hlatest : latest.val < 18446744073709551615) (hlimit : 1 ≤ limit.val) :
    offset.val ≤ afterWindows offset latest limit count ∧
      (windows offset latest limit count).flatMap Window.heights =
        List.range' offset.toNat ((afterWindows offset latest limit count).toNat - offset.toNat) := by
  induction count generalizing offset with
  | zero =>
    have := offset.lo_le
    unfold afterWindows
    split
    · exact ⟨Int.le_refl _, by simp [windows, Ranged.toNat]⟩
    · rename_i h
      rw [Ranged.lt_def] at h
      have hmin : min (latest.val + 1) (offset.val + limit.val * ((0 : Nat) : Int)) = offset.val := by
        simp
        omega
      rw [hmin]
      exact ⟨Int.le_refl _, by simp [windows, Ranged.toNat]⟩
  | succ count ih =>
    by_cases h : latest < offset
    · rw [windows_of_lt h, afterWindows, if_pos h]
      exact ⟨Int.le_refl _, by simp [Ranged.toNat]⟩
    · obtain ⟨hlast, hnext⟩ := firstWindow_val offset hlatest hlimit
      rw [afterWindows_succ hlatest hlimit h, windows, if_neg h]
      obtain ⟨hle, hrest⟩ := ih ((((offset.satAdd limit).satSub 1).smaller latest).satAdd 1)
      rw [List.flatMap_cons, hrest]
      rw [hnext] at hle
      rw [Ranged.lt_def] at h
      have := offset.lo_le
      refine ⟨by omega, ?_⟩
      -- the window ends where the rest starts
      have hstart : ((((offset.satAdd limit).satSub 1).smaller latest).satAdd 1).toNat =
          offset.toNat +
            ((((offset.satAdd limit).satSub 1).smaller latest).toNat + 1 - offset.toNat) := by
        simp only [Ranged.toNat, hlast, hnext]
        omega
      rw [Window.heights, hstart, List.range'_append_1]
      congr 1
      simp only [Ranged.toNat, hlast]
      omega

theorem getLast?_windows (hlatest : latest.val < 18446744073709551615) (hlimit : 1 ≤ limit.val)
    {w : Window} (hw : (windows offset latest limit count).getLast? = some w) :
    (w.last.satAdd 1).val = afterWindows offset latest limit count := by
  induction count generalizing offset w with
  | zero => cases hw
  | succ count ih =>
    by_cases h : latest < offset
    · rw [windows_of_lt h] at hw
      cases hw
    · rw [afterWindows_succ hlatest hlimit h]
      rw [windows, if_neg h, List.getLast?_cons] at hw
      cases hrest : (windows ((((offset.satAdd limit).satSub 1).smaller latest).satAdd 1) latest
          limit count).getLast? with
      | some v =>
        rw [hrest, Option.getD_some, Option.some.injEq] at hw
        exact ih (hw ▸ hrest)
      | none =>
        rw [hrest, Option.getD_none, Option.some.injEq] at hw
        rw [← hw]
        obtain ⟨-, hnext⟩ := firstWindow_val offset hlatest hlimit
        -- no window follows, so none is left or none has room
        have hnil := List.getLast?_eq_none_iff.1 hrest
        rw [afterWindows]
        split
        · rfl
        · rename_i hlt
          cases count with
          | zero =>
            rw [Ranged.lt_def] at hlt
            simp
            omega
          | succ count =>
            rw [windows, if_neg hlt] at hnil
            cases hnil

theorem windows_end (hlatest : latest.val < 18446744073709551615) (hlimit : 1 ≤ limit.val)
    (hcount : 0 < count) :
    (((windows offset latest limit count).getLast?.map
      fun w => w.last.satAdd 1).getD offset).val = afterWindows offset latest limit count := by
  cases hlast : (windows offset latest limit count).getLast? with
  | some w => exact getLast?_windows hlatest hlimit hlast
  | none =>
    have hnil := List.getLast?_eq_none_iff.1 hlast
    obtain ⟨count, rfl⟩ := Nat.exists_eq_succ_of_ne_zero (Nat.pos_iff_ne_zero.1 hcount)
    rw [afterWindows]
    split
    · rfl
    · rename_i h
      rw [Nat.succ_eq_add_one, windows, if_neg h] at hnil
      cases hnil

end Windows

end PoolLedger
