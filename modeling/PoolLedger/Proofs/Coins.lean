import Mathlib.Data.List.DropRight
import PoolLedger.Log
import PoolLedger.Proofs.Assets

/-! Coins in text. A coin is spelled as the digits of its amount and its denom, and
nothing else is read as a coin. Blanks around it do not count, and two coins stand on
the two sides of one comma. -/

namespace PoolLedger

namespace Text

theorem pieces_eq_splitOn (sep : Char) (cs : List Char) : pieces sep cs = cs.splitOn sep := by
  induction cs with
  | nil => rfl
  | cons c cs ih =>
    rw [pieces, ih, List.splitOn_cons_eq_if_modifyHead]
    cases hcs : cs.splitOn sep with
    | nil => exact absurd hcs (List.splitOn_ne_nil sep cs)
    | cons p ps => simp only [beq_iff_eq, List.modifyHead_cons]

theorem sep_notMem_piece {sep : Char} {cs p : List Char} (h : p ∈ pieces sep cs) : sep ∉ p := by
  induction cs generalizing p with
  | nil =>
    rw [List.mem_singleton.1 h]
    exact List.not_mem_nil
  | cons c cs ih =>
    unfold pieces at h
    split at h
    · rename_i hcs
      rw [pieces_eq_splitOn] at hcs
      exact absurd hcs (List.splitOn_ne_nil sep _)
    · rename_i q qs hcs
      rw [hcs] at ih
      split at h
      · obtain rfl | h := List.mem_cons.1 h
        · exact List.not_mem_nil
        · exact ih h
      · rename_i hc
        obtain rfl | h := List.mem_cons.1 h
        · exact List.not_mem_cons_of_ne_of_not_mem (Ne.symm hc) (ih List.mem_cons_self)
        · exact ih (List.mem_cons_of_mem q h)

theorem pieces_eq_iff {sep : Char} {cs : List Char} {parts : List (List Char)} :
    pieces sep cs = parts ↔
      parts ≠ [] ∧ (∀ p ∈ parts, sep ∉ p) ∧ [sep].intercalate parts = cs := by
  constructor
  · rintro rfl
    refine ⟨?_, fun p => sep_notMem_piece, ?_⟩ <;> rw [pieces_eq_splitOn]
    · exact List.splitOn_ne_nil sep cs
    · exact List.intercalate_splitOn sep
  · rintro ⟨hne, hparts, rfl⟩
    rw [pieces_eq_splitOn, List.splitOn_intercalate sep hparts hne]

theorem pieces_eq_pair_iff {sep : Char} {cs left right : List Char} :
    pieces sep cs = [left, right] ↔ cs = left ++ sep :: right ∧ sep ∉ left ∧ sep ∉ right := by
  have hjoin : [sep].intercalate [left, right] = left ++ sep :: right := by simp [List.intercalate]
  rw [pieces_eq_iff, and_iff_right (List.cons_ne_nil _ _), hjoin, List.forall_mem_cons,
    List.forall_mem_singleton, and_comm, eq_comm]

structure IsCore (cs core : List Char) : Prop where
  framed : ∃ before after, cs = before ++ core ++ after ∧
    (∀ c ∈ before, isBlank c = true) ∧ ∀ c ∈ after, isBlank c = true
  first : ∀ c ∈ core.head?, isBlank c = false
  last : ∀ c ∈ core.getLast?, isBlank c = false

theorem dropWhile_eq_self {p : Char → Bool} {cs : List Char} (h : ∀ c ∈ cs.head?, p c = false) :
    cs.dropWhile p = cs := by
  cases cs with
  | nil => rfl
  | cons c cs => exact List.dropWhile_cons_of_neg (by simpa using h c rfl)

theorem isCore_trim (cs : List Char) : IsCore cs (trim cs) := by
  have htrim : trim cs = (cs.dropWhile isBlank).rdropWhile isBlank := rfl
  rw [htrim]
  constructor
  case framed =>
    refine ⟨cs.takeWhile isBlank, (cs.dropWhile isBlank).rtakeWhile isBlank, ?_,
      fun c => List.mem_takeWhile_imp, fun c => List.mem_rtakeWhile_imp⟩
    rw [List.append_assoc, List.rdropWhile_append_rtakeWhile, List.takeWhile_append_dropWhile]
  case first =>
    intro c hc
    have hhead := List.head?_dropWhile_not isBlank cs
    obtain ⟨after, hafter⟩ := List.rdropWhile_prefix isBlank (cs.dropWhile isBlank)
    rw [← hafter, List.head?_append, Option.mem_def.1 hc] at hhead
    exact hhead
  case last =>
    intro c hc
    obtain ⟨hne, rfl⟩ := List.mem_getLast?_eq_getLast hc
    simpa using List.rdropWhile_last_not _ _ hne

theorem trim_eq_iff {cs core : List Char} : trim cs = core ↔ IsCore cs core := by
  constructor
  · rintro rfl
    exact isCore_trim cs
  · rintro ⟨⟨before, after, rfl, hbefore, hafter⟩, hfirst, hlast⟩
    rw [trim, List.append_assoc, List.dropWhile_append_of_pos hbefore]
    cases hcore : core with
    | nil =>
      -- blanks alone, all of which go as blanks at the start
      rw [List.nil_append, List.dropWhile_eq_nil_iff.2 hafter]
      rfl
    | cons c rest =>
      rw [← hcore, dropWhile_eq_self (by simpa [hcore] using hfirst), dropBlankEnd,
        List.reverse_append, List.dropWhile_append_of_pos (by simpa using hafter),
        dropWhile_eq_self (by simpa using hlast), List.reverse_reverse]

theorem isBlank_of_isDigit {c : Char} (h : c.isDigit = true) : isBlank c = false := by
  have hmin : '0'.toNat = 48 := rfl
  have hmax : '9'.toNat = 57 := rfl
  rw [Char.isDigit_iff_toNat, hmin, hmax] at h
  simp only [isBlank, Bool.or_eq_false_iff, Bool.and_eq_false_iff, decide_eq_false_iff_not,
    beq_eq_false_iff_ne]
  omega

end Text

theorem Amount.readChars?_eq_some_iff {digits : List Char} {a : Amount}
    (hd : ∀ c ∈ digits, c.isDigit = true) : Ranged.readChars? digits = some a ↔
      digits ≠ [] ∧ (Nat.ofDigitChars 10 digits 0 : Int) = a.val := by
  have hok : Ranged.readChars? digits = some a ↔ Ranged.readChars digits = .ok a := by
    rw [Ranged.readChars?]
    cases Ranged.readChars digits <;> simp [Except.toOption]
  rw [hok]
  by_cases hne : digits = []
  · subst hne
    simp [Ranged.readChars]
  · rw [Ranged.readChars_of_digits hne hd, readUnsigned_eq_ok, and_iff_right hd,
      and_iff_right hne]

/-- The digits of an amount, perhaps after zeros, and then a denom that starts with no digit. -/
structure SpellsCoin (cs : List Char) (coin : Amount × String) : Prop where
  digits : ∃ digits, cs = digits ++ coin.2.toList ∧ digits ≠ [] ∧
    (∀ c ∈ digits, c.isDigit = true) ∧ (Nat.ofDigitChars 10 digits 0 : Int) = coin.1.val
  denom : ∃ c rest, coin.2.toList = c :: rest ∧ c.isDigit = false

def IsCoin (cs : List Char) (coin : Amount × String) : Prop :=
  ∃ core, Text.IsCore cs core ∧ SpellsCoin core coin

theorem readCoinChars?_eq_some_iff {cs : List Char} {coin : Amount × String} :
    readCoinChars? cs = some coin ↔ IsCoin cs coin := by
  simp only [IsCoin, ← Text.trim_eq_iff, exists_eq_left']
  rw [readCoinChars?]
  generalize Text.trim cs = core
  have hrun : ∀ c ∈ core.takeWhile Char.isDigit, c.isDigit = true :=
    fun c => List.mem_takeWhile_imp
  have hrest := List.head?_dropWhile_not Char.isDigit core
  constructor
  · intro h
    split at h
    · cases h
    · rename_i hne
      obtain ⟨a, ha, rfl⟩ := Option.map_eq_some_iff.1 h
      obtain ⟨hdigits, hvalue⟩ := (Amount.readChars?_eq_some_iff hrun).1 ha
      refine ⟨⟨core.takeWhile Char.isDigit, ?_, hdigits, hrun, hvalue⟩, ?_⟩
      · rw [String.toList_ofList, List.takeWhile_append_dropWhile]
      · rw [String.toList_ofList]
        cases hdrop : core.dropWhile Char.isDigit with
        | nil => exact absurd hdrop hne
        | cons c rest =>
          rw [hdrop] at hrest
          exact ⟨c, rest, rfl, hrest⟩
  · rintro ⟨⟨digits, rfl, hne, hd, hvalue⟩, c, rest, hdenom, hc⟩
    have hread := (Amount.readChars?_eq_some_iff hd).2 ⟨hne, hvalue⟩
    -- the run of digits ends where the denom starts
    have hc : ¬ c.isDigit = true := by simp [hc]
    rw [hdenom, List.dropWhile_append_of_pos hd, List.takeWhile_append_of_pos hd,
      List.dropWhile_cons_of_neg hc, List.takeWhile_cons_of_neg hc, List.append_nil]
    simp only [hread, Option.map_some]
    rw [← hdenom, String.ofList_toList]

/-- Two coins on the two sides of the only comma of a text. -/
def IsCoinPair (s : String) (x y : Amount × String) : Prop :=
  ∃ left right, s.toList = left ++ ',' :: right ∧ (',' ∉ left ∧ ',' ∉ right) ∧
    IsCoin left x ∧ IsCoin right y

theorem readCoinPair?_eq_some_iff {s : String} {x y : Amount × String} :
    readCoinPair? s = some (x, y) ↔ IsCoinPair s x y := by
  unfold readCoinPair?
  constructor
  · intro h
    split at h
    · rename_i left right hpieces
      obtain ⟨x', hx, h⟩ := Option.bind_eq_some_iff.1 h
      obtain ⟨y', hy, h⟩ := Option.bind_eq_some_iff.1 h
      cases h
      obtain ⟨hs, hcommas⟩ := Text.pieces_eq_pair_iff.1 hpieces
      exact ⟨left, right, hs, hcommas, readCoinChars?_eq_some_iff.1 hx,
        readCoinChars?_eq_some_iff.1 hy⟩
    · cases h
  · rintro ⟨left, right, hs, hcommas, hx, hy⟩
    rw [Text.pieces_eq_pair_iff.2 ⟨hs, hcommas⟩]
    simp only [readCoinChars?_eq_some_iff.2 hx, readCoinChars?_eq_some_iff.2 hy]
    rfl

theorem readCoinPair?_eq_none_iff {s : String} :
    readCoinPair? s = none ↔ ∀ x y, ¬ IsCoinPair s x y := by
  simp only [Option.eq_none_iff_forall_ne_some, Prod.forall, ne_eq, readCoinPair?_eq_some_iff]

/-- A denom whose start and end show when it follows an amount in a list. -/
structure IsDenom (d : String) : Prop where
  nonempty : d ≠ ""
  first : ∀ c ∈ d.toList.head?, c.isDigit = false
  last : ∀ c ∈ d.toList.getLast?, Text.isBlank c = false
  comma : ',' ∉ d.toList

instance (d : String) : Decidable (IsDenom d) :=
  decidable_of_iff (d ≠ "" ∧ d.toList.head?.all (fun c => !c.isDigit) = true ∧
      d.toList.getLast?.all (fun c => !Text.isBlank c) = true ∧ ',' ∉ d.toList) <| by
    simp only [Option.all_eq_true, Bool.not_eq_true', ← Option.mem_def]
    exact ⟨fun ⟨h₁, h₂, h₃, h₄⟩ => ⟨h₁, h₂, h₃, h₄⟩, fun ⟨h₁, h₂, h₃, h₄⟩ => ⟨h₁, h₂, h₃, h₄⟩⟩

theorem Amount.toList_toString_ne_nil (a : Amount) : (toString a).toList ≠ [] := by
  rw [toList_toString]
  exact Nat.toDigits_ne_nil

namespace IsDenom

variable {d : String} {before after : List Char}

theorem exists_cons (h : IsDenom d) : ∃ c rest, d.toList = c :: rest ∧ c.isDigit = false := by
  cases hd : d.toList with
  | nil => exact absurd (String.toList_eq_nil_iff.1 hd) h.nonempty
  | cons c rest => exact ⟨c, rest, rfl, h.first c (by rw [hd]; rfl)⟩

theorem spellsCoin (h : IsDenom d) (a : Amount) :
    SpellsCoin ((toString a).toList ++ d.toList) (a, d) := by
  refine ⟨⟨_, rfl, a.toList_toString_ne_nil, fun c => Amount.isDigit_of_mem_toString, ?_⟩,
    h.exists_cons⟩
  rw [Amount.toList_toString, Nat.ofDigitChars_ten_toDigits]
  exact Int.toNat_of_nonneg a.lo_le

theorem isCoin (h : IsDenom d) (a : Amount) (hbefore : ∀ c ∈ before, Text.isBlank c = true)
    (hafter : ∀ c ∈ after, Text.isBlank c = true) :
    IsCoin (before ++ ((toString a).toList ++ d.toList) ++ after) (a, d) := by
  have hdenom : d.toList ≠ [] := fun hd => h.nonempty (String.toList_eq_nil_iff.1 hd)
  refine ⟨_, ⟨⟨before, after, rfl, hbefore, hafter⟩, ?_, ?_⟩, h.spellsCoin a⟩
  · rw [List.head?_append_of_ne_nil _ a.toList_toString_ne_nil]
    intro c hc
    exact Text.isBlank_of_isDigit (Amount.isDigit_of_mem_toString (List.mem_of_mem_head? hc))
  · rw [List.getLast?_append_of_ne_nil _ hdenom]
    exact h.last

theorem comma_notMem (h : IsDenom d) (a : Amount)
    (hbefore : ∀ c ∈ before, Text.isBlank c = true)
    (hafter : ∀ c ∈ after, Text.isBlank c = true) :
    ',' ∉ before ++ ((toString a).toList ++ d.toList) ++ after := by
  simp only [List.mem_append, not_or]
  refine ⟨⟨fun hc => ?_, fun hc => ?_, h.comma⟩, fun hc => ?_⟩
  · exact absurd (hbefore _ hc) (by decide)
  · exact absurd (Amount.isDigit_of_mem_toString hc) (by decide)
  · exact absurd (hafter _ hc) (by decide)

end IsDenom

def Text.Blank (s : String) : Prop := ∀ c ∈ s.toList, isBlank c = true

instance (s : String) : Decidable (Text.Blank s) :=
  decidable_of_iff (s.toList.all Text.isBlank = true) List.all_eq_true

theorem readCoinPair?_written {a b : Amount} {d e u v w z : String} (hd : IsDenom d)
    (he : IsDenom e) (hu : Text.Blank u) (hv : Text.Blank v) (hw : Text.Blank w)
    (hz : Text.Blank z) :
    readCoinPair? (u ++ (toString a ++ d) ++ v ++ "," ++ (w ++ (toString b ++ e) ++ z)) =
      some ((a, d), (b, e)) := by
  rw [readCoinPair?_eq_some_iff]
  refine ⟨_, _, ?_, ⟨hd.comma_notMem a hu hv, he.comma_notMem b hw hz⟩, hd.isCoin a hu hv,
    he.isCoin b hw hz⟩
  simp only [String.toList_append, List.append_assoc]
  rfl

/-- A pair of coins reads back from its text, whatever blanks are put around the coins, and
nothing but the text of two coins is read as one. -/
theorem coin_pairs_read_as_spelled :
    (∀ (a b : Amount) (d e : String), IsDenom d → IsDenom e →
      ∀ u v w z : String, Text.Blank u → Text.Blank v → Text.Blank w → Text.Blank z →
        readCoinPair? (u ++ (toString a ++ d) ++ v ++ "," ++ (w ++ (toString b ++ e) ++ z)) =
          some ((a, d), (b, e))) ∧
      (∀ s x y, readCoinPair? s = some (x, y) ↔ IsCoinPair s x y) ∧
      ∀ s, readCoinPair? s = none ↔ ∀ x y, ¬ IsCoinPair s x y :=
  ⟨fun _ _ _ _ hd he _ _ _ _ hu hv hw hz => readCoinPair?_written hd he hu hv hw hz,
    fun _ _ _ => readCoinPair?_eq_some_iff, fun _ => readCoinPair?_eq_none_iff⟩

theorem largest_coin_reads_back :
    IsDenom "ibc/A2E2" ∧ IsDenom " 7 x" ∧ Text.Blank "\u2003\t" ∧ Text.Blank "" ∧
      readCoinPair? ("\u2003\t" ++ (toString (1000 : Amount) ++ "ibc/A2E2") ++ "" ++ "," ++ ("" ++
          (toString (340282366920938463463374607431768211455 : Amount) ++ " 7 x") ++ "\u2003\t")) =
        some ((1000, "ibc/A2E2"), (340282366920938463463374607431768211455, " 7 x")) := by
  have hd : IsDenom "ibc/A2E2" := by decide +kernel
  have he : IsDenom " 7 x" := by decide +kernel
  have hblank : Text.Blank "\u2003\t" := by decide +kernel
  have hempty : Text.Blank "" := by decide +kernel
  obtain ⟨hread, -, -⟩ := coin_pairs_read_as_spelled
  exact ⟨hd, he, hblank, hempty, hread _ _ _ _ hd he _ _ _ _ hblank hempty hempty hblank⟩

end PoolLedger
