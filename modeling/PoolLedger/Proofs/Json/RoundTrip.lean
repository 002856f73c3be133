import PoolLedger.Json.Reader
import PoolLedger.Json.Writer
import PoolLedger.Proofs.Traverse

/-! Compact text reads back. A quoted text gives its characters again, whatever
they are, and a tree of texts, integers, lists and objects gives the tree again. -/

namespace PoolLedger.Json

def pieceOf (c : Char) : Piece :=
  if (c.toNat < 0x20 ∧ c ≠ '\x08' ∧ c ≠ '\t' ∧ c ≠ '\n' ∧ c ≠ '\x0c' ∧ c ≠ '\r') then .unit c.toNat
  else .char c

theorem hexUnit?_hexDigit : ∀ n < 0x20,
    hexUnit? '0' '0' (hexDigit (n / 16)) (hexDigit (n % 16)) = some n := by
  decide

theorem takePieces_plain {c : Char} (hq : c ≠ '"') (hb : c ≠ '\\') (hc : ¬ c.toNat < 0x20)
    (acc : List Piece) (cs : List Char) :
    takePieces acc (c :: cs) = takePieces (.char c :: acc) cs := by
  rw [takePieces]
  · rw [if_neg hc]
  · exact hq
  · intro _ _ _ _ _ h _
    exact hb h
  · intro _ _ h _
    exact hb h

theorem takePieces_escapeChar (acc : List Piece) (c : Char) (cs : List Char) :
    takePieces acc (escapeChar c ++ cs) = takePieces (pieceOf c :: acc) cs := by
  unfold escapeChar
  split
  iterate 7 rfl
  rename_i h₁ h₂ h₃ h₄ h₅ h₆ h₇
  split
  · rename_i hc
    have hu := hexUnit?_hexDigit c.toNat hc
    rw [pieceOf, if_pos ⟨hc, h₃, h₄, h₅, h₆, h₇⟩]
    simp only [List.cons_append, List.nil_append]
    rw [takePieces, hu]
  · rename_i hc
    rw [pieceOf, if_neg fun h => hc h.1]
    exact takePieces_plain h₁ h₂ hc acc cs

theorem takePieces_quoted (acc : List Piece) (cs rest : List Char) :
    takePieces acc (cs.flatMap escapeChar ++ '"' :: rest) =
      some ((cs.map pieceOf).reverse ++ acc, rest) := by
  induction cs generalizing acc with
  | nil => rfl
  | cons c cs ih =>
    rw [List.flatMap_cons, List.append_assoc, takePieces_escapeChar, ih, List.map_cons,
      List.reverse_cons, List.append_assoc, List.singleton_append]

theorem joinPieces_pieceOf (c : Char) (ps : List Piece) :
    joinPieces (pieceOf c :: ps) = (joinPieces ps).map (c :: ·) := by
  unfold pieceOf
  split
  · rename_i h
    obtain ⟨hc, -⟩ := h
    -- an escaped character is no surrogate, so its unit is not joined with the next one
    have hs : ¬ (0xD800 ≤ c.toNat ∧ c.toNat < 0xE000) := by omega
    cases ps with
    | nil =>
      simp only [joinPieces, if_neg hs, Char.ofNat_toNat]
    | cons p ps =>
      cases p with
      | char d => simp only [joinPieces, if_neg hs, Char.ofNat_toNat]
      | unit n =>
        rw [joinPieces, if_neg (by omega), if_neg (by omega), Char.ofNat_toNat]
  · rw [joinPieces]

theorem joinPieces_map (cs : List Char) : joinPieces (cs.map pieceOf) = some cs := by
  induction cs with
  | nil => rfl
  | cons c cs ih => rw [List.map_cons, joinPieces_pieceOf, ih, Option.map_some]

theorem takeToken_quote (s : String) (rest : List Char) :
    takeToken (quote s ++ rest) = some (.quoted (some s), rest) := by
  rw [quote, List.cons_append, List.cons_append, List.append_assoc, List.singleton_append,
    takeToken, takePieces_quoted]
  simp [joinPieces_map]

def EndsNumber (rest : List Char) : Prop :=
  ∀ c ∈ rest.head?, c.isDigit = false ∧ c ≠ '.' ∧ c ≠ 'e' ∧ c ≠ 'E'

theorem endsNumber_nil : EndsNumber [] := by simp [EndsNumber]

theorem endsNumber_cons {c : Char} (rest : List Char)
    (h : c.isDigit = false ∧ c ≠ '.' ∧ c ≠ 'e' ∧ c ≠ 'E') : EndsNumber (c :: rest) := by
  intro d hd
  cases hd
  exact h

theorem head?_toDigits {n : Nat} (hn : 0 < n) : (Nat.toDigits 10 n).head? ≠ some '0' := by
  induction n using Nat.strongRecOn with
  | ind n ih =>
    by_cases hlt : n < 10
    · rw [Nat.toDigits_of_lt_base hlt]
      have hdigit : ∀ m < 10, 0 < m → Nat.digitChar m ≠ '0' := by decide
      simpa using hdigit n hlt hn
    · have hfirst := ih (n / 10) (by omega) (by omega)
      rw [Nat.toDigits_of_base_le (by decide) (by omega)]
      cases hcs : Nat.toDigits 10 (n / 10) with
      | nil => exact absurd hcs Nat.toDigits_ne_nil
      | cons c cs => rwa [hcs] at hfirst

theorem takeWhole_toDigits (n : Nat) {rest : List Char} (hrest : EndsNumber rest) :
    takeWhole (Nat.toDigits 10 n ++ rest) = some (Nat.toDigits 10 n, rest) := by
  have hdigits : ∀ c ∈ Nat.toDigits 10 n, c.isDigit = true :=
    fun c hc => Nat.isDigit_of_mem_toDigits (by decide) (by decide) hc
  have hhead : 0 < n → (Nat.toDigits 10 n).head? ≠ some '0' := head?_toDigits
  cases hcs : Nat.toDigits 10 n with
  | nil => exact absurd hcs Nat.toDigits_ne_nil
  | cons c cs =>
    rw [hcs] at hdigits hhead
    by_cases hn : n = 0
    · rw [hn, Nat.toDigits_of_lt_base (by decide)] at hcs
      obtain ⟨rfl, rfl⟩ := List.cons.inj hcs
      rfl
    · have hzero : c ≠ '0' := fun he => hhead (Nat.pos_of_ne_zero hn) (congrArg some he)
      have htail : ∀ d ∈ cs, d.isDigit = true := fun d hd => hdigits d (List.mem_cons_of_mem c hd)
      have htake : rest.takeWhile Char.isDigit = [] ∧ rest.dropWhile Char.isDigit = rest := by
        cases rest with
        | nil => exact ⟨rfl, rfl⟩
        | cons d rest =>
          have hd : ¬ d.isDigit = true := Bool.eq_false_iff.1 (hrest d rfl).1
          exact ⟨List.takeWhile_cons_of_neg hd, List.dropWhile_cons_of_neg hd⟩
      rw [List.cons_append, takeWhole]
      · rw [if_pos (hdigits c List.mem_cons_self), List.takeWhile_append_of_pos htail,
          List.dropWhile_append_of_pos htail, htake.1, htake.2, List.append_nil]
      · exact hzero

theorem takeNumeral_toDigits (n : Nat) {rest : List Char} (hrest : EndsNumber rest) :
    takeNumeral false (Nat.toDigits 10 n ++ rest) =
      some (⟨false, Nat.toDigits 10 n, [], none⟩, rest) := by
  have hfraction : takeFraction rest = some ([], rest) := by
    unfold takeFraction
    split
    · exact absurd rfl (hrest '.' rfl).2.1
    · rfl
  rw [takeNumeral, takeWhole_toDigits n hrest]
  simp only [Option.bind_eq_bind, Option.bind_some, hfraction]
  split
  · exact absurd rfl (hrest 'e' rfl).2.2.1
  · exact absurd rfl (hrest 'E' rfl).2.2.2
  · rfl

theorem isDigit_of_toDigits_eq_cons {n : Nat} {c : Char} {cs : List Char}
    (h : Nat.toDigits 10 n = c :: cs) : c.isDigit = true := by
  have hmem : c ∈ Nat.toDigits 10 n := by
    rw [h]
    exact List.mem_cons_self
  exact Nat.isDigit_of_mem_toDigits (by decide) (by decide) hmem

theorem isSpace_of_isDigit {c : Char} (hc : c.isDigit = true) : isSpace c = false := by
  cases hspace : isSpace c with
  | false => rfl
  | true =>
    simp only [isSpace, Bool.or_eq_true, beq_iff_eq] at hspace
    rcases hspace with ((rfl | rfl) | rfl) | rfl <;> exact absurd hc (by decide)

theorem takeToken_digit {c : Char} (hc : c.isDigit = true) (cs : List Char) :
    takeToken (c :: cs) = (takeNumeral false (c :: cs)).map fun (n, r) => (.leaf n.leaf, r) := by
  unfold takeToken
  split
  case h_12 => rfl
  all_goals
    rename_i heq
    obtain ⟨rfl, -⟩ := List.cons.inj heq
    exact absurd hc (by decide)

theorem takeToken_int {n : Nat} (hn : n ≤ maxWord) {rest : List Char} (hrest : EndsNumber rest) :
    takeToken ((int n).chars ++ rest) = some (.leaf (.int n), rest) := by
  have hchars : (int n).chars = Nat.toDigits 10 n := Nat.toList_repr
  have hleaf : Numeral.leaf ⟨false, Nat.toDigits 10 n, [], none⟩ = .int n := by
    have hv : Nat.ofDigitChars 10 (Nat.toDigits 10 n) 0 = n := Nat.ofDigitChars_ten_toDigits
    simp [Numeral.leaf, hv, hn]
  have hnumeral := takeNumeral_toDigits n hrest
  rw [hchars]
  cases hcs : Nat.toDigits 10 n with
  | nil => exact absurd hcs Nat.toDigits_ne_nil
  | cons c cs =>
    rw [List.cons_append, takeToken_digit (isDigit_of_toDigits_eq_cons hcs), ← List.cons_append,
      ← hcs, hnumeral, Option.map_some]
    exact congrArg (fun j => some (Token.leaf j, rest)) hleaf

mutual

def plain : Json → Bool
  | .int n => 0 ≤ n && n.toNat ≤ maxWord
  | .text _ => true
  | .list items => plainItems items
  | .object members => plainMembers members
  | _ => false

def plainItems : List Json → Bool
  | [] => true
  | x :: xs => x.plain && plainItems xs

def plainMembers : List (String × Json) → Bool
  | [] => true
  | (_, x) :: xs => x.plain && plainMembers xs

end

namespace Machine

theorem run_token {m m' : Machine} {c : Char} {rest after : List Char} {t : Token}
    (hc : isSpace c = false) (ht : takeToken (c :: rest) = some (t, after))
    (hm : m.step t = some m') : m.run (c :: rest) = m'.run after := by
  rw [run, hc, if_neg Bool.false_ne_true]
  split
  · rename_i hn
    rw [ht] at hn
    cases hn
  · rename_i t' after' h
    rw [ht] at h
    cases h
    simp only [hm]

theorem run_quote {m m' : Machine} {s : String} {rest : List Char}
    (hm : m.step (.quoted (some s)) = some m') : m.run (quote s ++ rest) = m'.run rest := by
  have ht := takeToken_quote s rest
  rw [quote, List.cons_append, List.cons_append] at ht ⊢
  exact run_token rfl ht hm

theorem run_int {m m' : Machine} {n : Nat} {rest : List Char} (hn : n ≤ maxWord)
    (hrest : EndsNumber rest) (hm : m.step (.leaf (.int n)) = some m') :
    m.run ((int n).chars ++ rest) = m'.run rest := by
  have ht := takeToken_int hn hrest
  have hchars : (int n).chars = Nat.toDigits 10 n := Nat.toList_repr
  cases hcs : Nat.toDigits 10 n with
  | nil => exact absurd hcs Nat.toDigits_ne_nil
  | cons c cs =>
    rw [hchars, hcs, List.cons_append] at ht ⊢
    exact run_token (isSpace_of_isDigit (isDigit_of_toDigits_eq_cons hcs)) ht hm

def Accepts (m : Machine) (stack : List Frame) : Prop :=
  ∀ t m', startValue stack t = some m' → m.step t = some m'

theorem accepts_value (stack : List Frame) : Accepts ⟨stack, .value⟩ stack := fun _ _ h => h

theorem accepts_valueOrClose (stack : List Frame) :
    Accepts ⟨.list [] :: stack, .valueOrClose⟩ (.list [] :: stack) := by
  intro t m' h
  cases t <;> first | exact h | cases h

def AcceptsMember (m : Machine) (done : List (String × Json)) (stack : List Frame) : Prop :=
  ∀ k, m.step (.quoted (some k)) =
    some ⟨.object (done.map fun e => (some e.1, e.2)) :: stack, .colon (some k)⟩

theorem closeObject_map (members : List (String × Json)) :
    closeObject (members.map fun e => (some e.1, e.2)) = .object members := by
  have h : (members.map fun e => (some e.1, e.2)).mapM
      (fun m : Option String × Json => m.1.map fun k => (k, m.2)) = some members := by
    rw [Traverse.mapM_eq_some, List.map_map]
    rfl
  rw [closeObject, h]

mutual

theorem run_chars (j : Json) (hj : j.plain = true) (m : Machine) (stack : List Frame)
    (hm : m.Accepts stack) {rest : List Char} (hrest : EndsNumber rest) :
    m.run (j.chars ++ rest) = run ⟨stack, .after j⟩ rest := by
  cases j with
  | int n =>
    obtain ⟨hn, hle⟩ := Bool.and_eq_true_iff.1 hj
    obtain ⟨n, rfl⟩ := Int.eq_ofNat_of_zero_le (of_decide_eq_true hn)
    exact run_int (of_decide_eq_true hle) hrest (hm _ _ rfl)
  | text s =>
    rw [chars]
    exact run_quote (hm _ _ rfl)
  | list items =>
    rw [chars, List.cons_append, run_token rfl rfl (hm .openList _ rfl)]
    cases items with
    | nil => exact run_token rfl rfl rfl
    | cons x xs =>
      exact run_itemChars (x :: xs) (List.cons_ne_nil x xs) hj [] _ stack
        (accepts_valueOrClose stack) rest
  | object members =>
    rw [chars, List.cons_append, run_token rfl rfl (hm .openObject _ rfl)]
    cases members with
    | nil => exact run_token rfl rfl rfl
    | cons e es =>
      exact run_memberChars (e :: es) (List.cons_ne_nil e es) hj [] _ stack (fun _ => rfl) rest
  | _ => cases hj

theorem run_itemChars (items : List Json) (hne : items ≠ []) (hj : plainItems items = true)
    (done : List Json) (m : Machine) (stack : List Frame) (hm : m.Accepts (.list done :: stack))
    (rest : List Char) :
    m.run (itemChars items ++ rest) =
      run ⟨stack, .after (.list (done.reverse ++ items))⟩ rest := by
  match items with
  | [] => exact absurd rfl hne
  | [x] =>
    rw [plainItems, Bool.and_eq_true] at hj
    rw [itemChars, List.append_assoc, List.singleton_append,
      run_chars x hj.1 m _ hm (endsNumber_cons rest (by decide))]
    refine (run_token rfl rfl rfl).trans ?_
    rw [List.reverse_cons]
  | x :: y :: ys =>
    rw [plainItems, Bool.and_eq_true] at hj
    rw [itemChars, List.append_assoc, List.cons_append,
      run_chars x hj.1 m _ hm (endsNumber_cons _ (by decide))]
    · refine (run_token rfl rfl rfl).trans ?_
      rw [run_itemChars (y :: ys) (List.cons_ne_nil y ys) hj.2 (x :: done) _ stack
        (accepts_value _), List.reverse_cons, List.append_assoc]
      rfl
    · simp

theorem run_memberChars (members : List (String × Json)) (hne : members ≠ [])
    (hj : plainMembers members = true) (done : List (String × Json)) (m : Machine)
    (stack : List Frame) (hm : m.AcceptsMember done stack) (rest : List Char) :
    m.run (memberChars members ++ rest) =
      run ⟨stack, .after (.object (done.reverse ++ members))⟩ rest := by
  match members with
  | [] => exact absurd rfl hne
  | [(k, x)] =>
    rw [plainMembers, Bool.and_eq_true] at hj
    rw [memberChars, List.append_assoc, List.append_assoc, List.cons_append, run_quote (hm k)]
    refine (run_token rfl rfl rfl).trans ?_
    rw [List.singleton_append,
      run_chars x hj.1 _ _ (accepts_value _) (endsNumber_cons rest (by decide))]
    refine (run_token rfl rfl rfl).trans ?_
    rw [← List.map_cons (f := fun e : String × Json => (some e.1, e.2)) (a := (k, x)),
      ← List.map_reverse, closeObject_map, List.reverse_cons]
  | (k, x) :: e :: es =>
    rw [plainMembers, Bool.and_eq_true] at hj
    rw [memberChars, List.append_assoc, List.append_assoc, List.cons_append, List.cons_append,
      run_quote (hm k)]
    · refine (run_token rfl rfl rfl).trans ?_
      rw [run_chars x hj.1 _ _ (accepts_value _) (endsNumber_cons _ (by decide))]
      refine (run_token rfl rfl rfl).trans ?_
      rw [run_memberChars (e :: es) (List.cons_ne_nil e es) hj.2 ((k, x) :: done) _ stack
        (fun _ => rfl), List.reverse_cons, List.append_assoc]
      rfl
    · simp

end

end Machine

/-- The compact text of a tree of texts, integers, lists and objects gives the tree. -/
theorem ofString?_compact {j : Json} (h : j.plain = true) : ofString? j.compact = some j := by
  have hr := Machine.run_chars j h ⟨[], .value⟩ [] (Machine.accepts_value []) endsNumber_nil
  rw [List.append_nil] at hr
  rw [ofString?, compact, String.toList_ofList, ofChars?, hr, Machine.run]
  rfl

end PoolLedger.Json
