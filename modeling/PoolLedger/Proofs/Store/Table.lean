import Mathlib.Data.List.Induction
import PoolLedger.Store.Schema

/-! Writing rows into a table. The division into statements does not matter: the
rows go in one by one. A table that ignores known keys grows by the new ones; a
table that replaces them holds the last row written under each. -/

namespace PoolLedger

def Row.stored (row : Row) : Row := row.map Cell.stored

theorem flatten_chunks {α : Type} (n : Nat) (xs : List α) : (chunks n xs).flatten = xs := by
  induction xs using chunks.induct n with
  | case1 => simp [chunks]
  | case2 x xs ih =>
    rw [chunks, List.flatten_cons, ih, List.cons_append, List.take_append_drop]

namespace TableSchema

variable (s : TableSchema)

def insertEach (rows new : List Row) : List Row := new.foldl (fun acc row => (s.insertRow acc row).1) rows

theorem insertStatement_fst (rows new : List Row) :
    (s.insertStatement rows new).1 = s.insertEach rows new :=
  (List.foldl_hom Prod.fst fun _ _ => rfl).symm

theorem insertRows_fst (rows new : List Row) : (s.insertRows rows new).1 = s.insertEach rows new := by
  have hpieces : (s.insertRows rows new).1 = (chunks statementSize new).foldl
      (fun acc chunk => (s.insertStatement acc chunk).1) rows :=
    (List.foldl_hom Prod.fst fun _ _ => rfl).symm
  rw [hpieces]
  simp only [insertStatement_fst, insertEach]
  rw [← List.foldl_flatten, flatten_chunks]

theorem insertEach_append (rows new more : List Row) :
    s.insertEach rows (new ++ more) = s.insertEach (s.insertEach rows new) more :=
  List.foldl_append

theorem insertEach_concat (rows new : List Row) (row : Row) :
    s.insertEach rows (new ++ [row]) = (s.insertRow (s.insertEach rows new) row).1 :=
  s.insertEach_append rows new [row]

variable {s}

theorem insertRow_taken (h : s.conflict = .ignore) {rows : List Row} {row r : Row} (hr : r ∈ rows)
    (hk : s.keyOf r = s.keyOf row.stored) : (s.insertRow rows row).1 = rows := by
  have ht : (rows.any fun r => s.keyOf r = s.keyOf row.stored) = true :=
    List.any_eq_true.2 ⟨r, hr, by simpa using hk⟩
  simp only [insertRow, h]
  rw [Row.stored] at ht
  rw [if_pos ht]

theorem insertRow_fresh (h : s.conflict = .ignore) {rows : List Row} {row : Row}
    (hk : ∀ r ∈ rows, s.keyOf r ≠ s.keyOf row.stored) :
    (s.insertRow rows row).1 = rows ++ [row.stored] := by
  have ht : ¬ (rows.any fun r => s.keyOf r = s.keyOf row.stored) = true := by
    simpa using hk
  simp only [insertRow, h]
  rw [Row.stored] at ht
  rw [if_neg ht]
  rfl

theorem insertEach_fresh (h : s.conflict = .ignore) {rows new : List Row}
    (hn : (new.map Row.stored).Pairwise fun a b => s.keyOf a ≠ s.keyOf b)
    (hk : ∀ r ∈ rows, ∀ row ∈ new, s.keyOf r ≠ s.keyOf row.stored) :
    s.insertEach rows new = rows ++ new.map Row.stored := by
  induction new generalizing rows with
  | nil => simp [insertEach]
  | cons row new ih =>
    rw [List.map_cons, List.pairwise_cons] at hn
    have hr := insertRow_fresh h fun r hr => hk r hr row List.mem_cons_self
    change s.insertEach (s.insertRow rows row).1 new = _
    rw [hr, ih hn.2, List.map_cons, List.append_assoc, List.singleton_append]
    intro r hr row' hrow'
    rcases List.mem_append.1 hr with hr | hr
    · exact hk r hr row' (List.mem_cons_of_mem row hrow')
    · rw [List.mem_singleton.1 hr]
      exact hn.1 _ (List.mem_map_of_mem hrow')

theorem insertEach_taken (h : s.conflict = .ignore) {rows new : List Row}
    (hk : ∀ row ∈ new, ∃ r ∈ rows, s.keyOf r = s.keyOf row.stored) :
    s.insertEach rows new = rows := by
  induction new with
  | nil => rfl
  | cons row new ih =>
    obtain ⟨r, hr, hrk⟩ := hk row List.mem_cons_self
    change s.insertEach (s.insertRow rows row).1 new = rows
    rw [insertRow_taken h hr hrk]
    exact ih fun row' hrow' => hk row' (List.mem_cons_of_mem row hrow')

def lastWith (s : TableSchema) (new : List Row) (row : Row) : Option Row :=
  new.reverse.find? fun r => s.keyOf r = s.keyOf row

theorem lastWith_concat (new : List Row) (r row : Row) :
    s.lastWith (new ++ [r]) row = if s.keyOf r = s.keyOf row then some r else s.lastWith new row := by
  rw [lastWith, List.reverse_append, List.reverse_singleton, List.singleton_append, List.find?_cons]
  by_cases hk : s.keyOf r = s.keyOf row <;> simp [hk, lastWith]

theorem lastWith_eq_none {new : List Row} {row : Row} :
    s.lastWith new row = none ↔ ∀ r ∈ new, s.keyOf r ≠ s.keyOf row := by
  simp [lastWith]

theorem insertRow_replace (h : s.conflict = .replace) (rows : List Row) (row : Row) :
    (s.insertRow rows row).1 = rows.filter (fun r => s.keyOf r ≠ s.keyOf row.stored) ++
      [row.stored] := by
  simp only [insertRow, h]
  rfl

theorem mem_insertRow_replace (h : s.conflict = .replace) {rows : List Row} {row r : Row} :
    r ∈ (s.insertRow rows row).1 ↔
      r = row.stored ∨ r ∈ rows ∧ s.keyOf row.stored ≠ s.keyOf r := by
  rw [insertRow_replace h, List.mem_append, List.mem_filter, List.mem_singleton]
  simp only [ne_eq, decide_eq_true_eq]
  rw [or_comm, eq_comm (a := s.keyOf r)]

theorem mem_insertEach_replace (h : s.conflict = .replace) {rows new : List Row} {row : Row} :
    row ∈ s.insertEach rows new ↔
      s.lastWith (new.map Row.stored) row = some row ∨
        s.lastWith (new.map Row.stored) row = none ∧ row ∈ rows := by
  induction new using List.reverseRecOn with
  | nil => simp [insertEach, lastWith]
  | append_singleton new r ih =>
    rw [insertEach_concat, mem_insertRow_replace h, ih, List.map_append, List.map_singleton,
      lastWith_concat]
    by_cases hk : s.keyOf r.stored = s.keyOf row
    · simp [hk, eq_comm (a := row)]
    · have hr : row ≠ r.stored := fun e => hk (by rw [e])
      simp [hk, hr]

def Agree (s : TableSchema) (rows : List Row) : Prop :=
  ∀ a ∈ rows, ∀ b ∈ rows, s.keyOf a = s.keyOf b → a = b

theorem lastWith_eq_some_of_agree {new : List Row} (ha : s.Agree new) {row r : Row} :
    s.lastWith new row = some r ↔ r ∈ new ∧ s.keyOf r = s.keyOf row := by
  constructor
  · intro hl
    exact ⟨List.mem_reverse.1 (List.mem_of_find?_eq_some hl), by simpa using List.find?_some hl⟩
  · rintro ⟨hm, hk⟩
    cases hl : s.lastWith new row with
    | none => exact absurd hk (lastWith_eq_none.1 hl r hm)
    | some q =>
      have hq := List.mem_reverse.1 (List.mem_of_find?_eq_some hl)
      have hqk : s.keyOf q = s.keyOf row := by simpa using List.find?_some hl
      rw [ha q hq r hm (hqk.trans hk.symm)]

theorem mem_insertEach_of_agree (h : s.conflict = .replace) {rows new : List Row}
    (ha : s.Agree (new.map Row.stored)) {row : Row} :
    row ∈ s.insertEach rows new ↔
      row ∈ new.map Row.stored ∨
        (∀ a ∈ new.map Row.stored, s.keyOf a ≠ s.keyOf row) ∧ row ∈ rows := by
  rw [mem_insertEach_replace h, lastWith_eq_some_of_agree ha, and_iff_left rfl, lastWith_eq_none]

theorem mem_insertEach_again (h : s.conflict = .replace) {rows new new' : List Row}
    (hl : ∀ row, s.lastWith (new'.map Row.stored) row = s.lastWith (new.map Row.stored) row)
    (row : Row) :
    row ∈ s.insertEach (s.insertEach rows new) new' ↔ row ∈ s.insertEach rows new := by
  rw [mem_insertEach_replace h, mem_insertEach_replace h, hl]
  cases s.lastWith (new.map Row.stored) row with
  | none => simp
  | some r => simp

theorem insertEach_eq_append (h : s.conflict = .replace) (rows new : List Row) :
    ∃ tail, s.insertEach rows new =
        rows.filter (fun r => !(new.map Row.stored).any fun row => s.keyOf row = s.keyOf r) ++
          tail ∧ ∀ r ∈ tail, r ∈ new.map Row.stored := by
  induction new using List.reverseRecOn with
  | nil => exact ⟨[], by simp [insertEach, List.filter_eq_self.2], by simp⟩
  | append_singleton new row ih =>
    obtain ⟨tail, he, ht⟩ := ih
    refine ⟨tail.filter (fun r => s.keyOf r ≠ s.keyOf row.stored) ++ [row.stored], ?_, ?_⟩
    · rw [insertEach_concat, insertRow_replace h, he, List.filter_append, List.filter_filter,
        List.append_assoc]
      congr 1
      apply List.filter_congr
      intro r _
      rw [List.map_append, List.any_append, Bool.not_or, Bool.and_comm]
      simp [eq_comm]
    · intro r hr
      rcases List.mem_append.1 hr with hr | hr
      · simp [ht r (List.mem_filter.1 hr).1]
      · simp [List.mem_singleton.1 hr]

end TableSchema

end PoolLedger
