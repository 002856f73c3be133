import Mathlib.Data.List.Basic
import Mathlib.Data.List.Pairwise
import PoolLedger.Proofs.Store.Table

/-! A table after many rows have been put in, in one formula. A table that
ignores known keys gets the first row of every new key; a table that replaces
them loses the rows of the new keys and gets the last row of each. -/

namespace PoolLedger.TableSchema

variable (s : TableSchema) (rows new : List Row)

def Apart (a b : Row) : Prop := s.keyOf a ≠ s.keyOf b

instance : DecidableRel s.Apart := fun a b => inferInstanceAs (Decidable (s.keyOf a ≠ s.keyOf b))

theorem Apart.symm {s : TableSchema} {a b : Row} (h : s.Apart a b) : s.Apart b a := Ne.symm h

def UniqueKeys : Prop := rows.Pairwise s.Apart

def lasts : List Row := rows.pwFilter s.Apart

def firsts : List Row := (s.lasts rows.reverse).reverse

def without (others : List Row) : List Row := rows.filter fun r => others.all fun o => s.Apart o r

def merge : List Row :=
  match s.conflict with
  | .ignore => rows ++ s.without (s.firsts (new.map Row.stored)) rows
  | .replace => s.without rows (new.map Row.stored) ++ s.lasts (new.map Row.stored)

variable {s rows new}

theorem mem_without {others : List Row} {r : Row} :
    r ∈ s.without rows others ↔ r ∈ rows ∧ ∀ o ∈ others, s.Apart o r := by
  simp [without]

theorem without_nil : s.without rows [] = rows := List.filter_eq_self.2 fun _ _ => rfl

theorem without_cons {others : List Row} {r : Row} :
    s.without (r :: rows) others =
      if ∀ o ∈ others, s.Apart o r then r :: s.without rows others else s.without rows others := by
  simp [without, List.filter_cons]

theorem without_append {others : List Row} :
    s.without (rows ++ new) others = s.without rows others ++ s.without new others :=
  List.filter_append _ _

theorem without_without {others more : List Row} :
    s.without (s.without rows others) more = s.without rows (others ++ more) := by
  rw [without, without, List.filter_filter]
  refine List.filter_congr fun r _ => ?_
  rw [List.all_append, Bool.and_comm]

theorem apart_lasts {row : Row} :
    (∀ r ∈ s.lasts rows, s.Apart row r) ↔ ∀ r ∈ rows, s.Apart row r := by
  refine List.forall_mem_pwFilter (fun {a b c} hac => ?_) row rows
  by_cases hab : s.keyOf a = s.keyOf b
  · exact .inr fun hbc => hac (hab.trans hbc)
  · exact .inl hab

theorem lasts_nil : s.lasts [] = [] := rfl

theorem lasts_cons {row : Row} :
    s.lasts (row :: rows) = if ∀ r ∈ rows, s.Apart row r then row :: s.lasts rows
      else s.lasts rows := by
  split
  · rename_i h
    exact List.pwFilter_cons_of_pos (apart_lasts.2 h)
  · rename_i h
    exact List.pwFilter_cons_of_neg (mt apart_lasts.1 h)

theorem lasts_concat {row : Row} :
    s.lasts (rows ++ [row]) = s.without (s.lasts rows) [row] ++ [row] := by
  induction rows with
  | nil => simp [lasts_cons, lasts_nil, without]
  | cons r rows ih =>
    have hall : (∀ q ∈ rows ++ [row], s.Apart r q) ↔ (∀ q ∈ rows, s.Apart r q) ∧ s.Apart r row := by
      simp [or_imp, forall_and]
    have hrow : (∀ o ∈ [row], s.Apart o r) ↔ s.Apart r row := by
      simpa using ⟨Apart.symm, Apart.symm⟩
    rw [List.cons_append, lasts_cons, ih, lasts_cons]
    by_cases h : ∀ q ∈ rows, s.Apart r q
    · rw [if_pos h, without_cons]
      by_cases hr : s.Apart r row
      · rw [if_pos (hall.2 ⟨h, hr⟩), if_pos (hrow.2 hr), List.cons_append]
      · rw [if_neg (fun hq => hr (hall.1 hq).2), if_neg (mt hrow.1 hr)]
    · rw [if_neg (fun hq => h (hall.1 hq).1), if_neg h]

theorem firsts_concat {row : Row} :
    s.firsts (rows ++ [row]) = if ∀ r ∈ rows, s.Apart row r then s.firsts rows ++ [row]
      else s.firsts rows := by
  rw [firsts, List.reverse_append, List.reverse_singleton, List.singleton_append, lasts_cons]
  simp only [List.mem_reverse]
  split
  · rw [List.reverse_cons, firsts]
  · rfl

theorem apart_firsts {row : Row} :
    (∀ r ∈ s.firsts rows, s.Apart row r) ↔ ∀ r ∈ rows, s.Apart row r := by
  have hlasts : (∀ r ∈ s.lasts rows.reverse, s.Apart row r) ↔ ∀ r ∈ rows.reverse, s.Apart row r :=
    apart_lasts
  simpa [firsts] using hlasts

theorem apart_append_without {row : Row} :
    (∀ r ∈ rows ++ s.without (s.firsts new) rows, s.Apart row r) ↔
      (∀ r ∈ rows, s.Apart row r) ∧ ∀ r ∈ new, s.Apart row r := by
  have hfirsts : (∀ r ∈ s.firsts new, s.Apart row r) ↔ ∀ r ∈ new, s.Apart row r := apart_firsts
  rw [List.forall_mem_append, ← hfirsts]
  refine and_congr_right fun hrows => ?_
  constructor
  · intro hkept r hr hk
    refine hkept r (mem_without.2 ⟨hr, fun o ho hok => ?_⟩) hk
    exact hrows o ho (hk.trans hok.symm)
  · exact fun hnew r hr => hnew r (mem_without.1 hr).1

theorem insertRow_ignore (h : s.conflict = .ignore) (row : Row) :
    (s.insertRow rows row).1 =
      if ∀ r ∈ rows, s.Apart row.stored r then rows ++ [row.stored] else rows := by
  split
  · rename_i hfresh
    exact insertRow_fresh h fun r hr => (hfresh r hr).symm
  · rename_i htaken
    simp only [not_forall, Apart, ne_eq, not_not] at htaken
    obtain ⟨r, hr, hk⟩ := htaken
    exact insertRow_taken h hr hk.symm

theorem insertEach_ignore (h : s.conflict = .ignore) :
    s.insertEach rows new = rows ++ s.without (s.firsts (new.map Row.stored)) rows := by
  -- rows come in at the end, and the last one changes nothing before it
  induction new using List.reverseRecOn with
  | nil => simp [insertEach, firsts, lasts, without]
  | append_singleton new row ih =>
    have hrow : (∀ r ∈ rows, s.Apart row.stored r) ↔ ∀ r ∈ rows, s.Apart r row.stored :=
      forall₂_congr fun _ _ => ⟨Apart.symm, Apart.symm⟩
    rw [insertEach_concat, ih, insertRow_ignore h, List.map_append, List.map_singleton,
      firsts_concat]
    simp only [apart_append_without]
    by_cases hnew : ∀ r ∈ new.map Row.stored, s.Apart row.stored r
    · rw [if_pos hnew, without_append, without_cons]
      by_cases hold : ∀ r ∈ rows, s.Apart row.stored r
      · rw [if_pos ⟨hold, hnew⟩, if_pos (hrow.1 hold), List.append_assoc]
        rfl
      · rw [if_neg (fun hboth => hold hboth.1), if_neg (mt hrow.2 hold)]
        simp [without]
    · rw [if_neg hnew, if_neg fun hboth => hnew hboth.2]

theorem insertEach_replace (h : s.conflict = .replace) :
    s.insertEach rows new =
      s.without rows (new.map Row.stored) ++ s.lasts (new.map Row.stored) := by
  induction new using List.reverseRecOn with
  | nil => simp [insertEach, lasts_nil, without_nil]
  | append_singleton new row ih =>
    have hkept (kept : List Row) :
        kept.filter (fun r => s.keyOf r ≠ s.keyOf row.stored) = s.without kept [row.stored] := by
      refine List.filter_congr fun r _ => ?_
      simp [Apart, eq_comm]
    rw [insertEach_concat, insertRow_replace h, ih, List.map_append, List.map_singleton,
      lasts_concat, hkept, without_append, without_without, List.append_assoc]

/-- One row at a time, the table becomes what the formula says. -/
theorem insertEach_eq_merge : s.insertEach rows new = s.merge rows new := by
  cases h : s.conflict with
  | ignore => rw [merge, h, insertEach_ignore h]
  | replace => rw [merge, h, insertEach_replace h]

theorem firsts_of_unique (h : s.UniqueKeys rows) : s.firsts rows = rows := by
  have hreverse : rows.reverse.Pairwise s.Apart :=
    List.pairwise_reverse.2 (h.imp fun hab => hab.symm)
  rw [firsts, lasts, hreverse.pwFilter, List.reverse_reverse]

theorem filter_insertEach (h : s.conflict = .ignore) (hnew : s.UniqueKeys (new.map Row.stored))
    (keep : Row → Bool) :
    (s.insertEach rows new).filter keep =
      rows.filter keep ++ s.without ((new.map Row.stored).filter keep) rows := by
  rw [insertEach_ignore h, firsts_of_unique hnew, List.filter_append, without, without,
    List.filter_comm]

theorem insertStatements_eq (parts : List (List Row)) :
    parts.foldl (fun acc part => (s.insertStatement acc part).1) rows =
      s.insertEach rows parts.flatten := by
  simp only [insertStatement_fst, insertEach, List.foldl_flatten]

theorem UniqueKeys.insertRow (h : s.UniqueKeys rows) (row : Row) :
    s.UniqueKeys (s.insertRow rows row).1 := by
  cases hc : s.conflict with
  | ignore =>
    rw [insertRow_ignore hc]
    split
    · rename_i hfresh
      exact List.pairwise_append.2 ⟨h, List.pairwise_singleton _ _,
        fun r hr q hq => List.mem_singleton.1 hq ▸ (hfresh r hr).symm⟩
    · exact h
  | replace =>
    rw [insertRow_replace hc]
    refine List.pairwise_append.2 ⟨h.filter _, List.pairwise_singleton _ _, fun r hr q hq => ?_⟩
    rw [List.mem_singleton.1 hq]
    simpa [Apart] using (List.mem_filter.1 hr).2

theorem UniqueKeys.insertEach (h : s.UniqueKeys rows) : s.UniqueKeys (s.insertEach rows new) := by
  induction new generalizing rows with
  | nil => exact h
  | cons row new ih => exact ih (h.insertRow row)

end PoolLedger.TableSchema
