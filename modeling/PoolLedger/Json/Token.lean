import PoolLedger.Json.Number

/-! The words of JSON text. Each reading step takes one word off the front and
leaves a shorter text. -/

namespace PoolLedger.Json

inductive Token
  | openObject
  | closeObject
  | openList
  | closeList
  | colon
  | comma
  | leaf (j : Json)
  | quoted (s : Option String)

def isSpace (c : Char) : Bool := c == ' ' || c == '\t' || c == '\n' || c == '\r'

/-- One piece of a quoted text: a character, or a 16-bit unit by number. -/
inductive Piece
  | char (c : Char)
  | unit (n : Nat)

def hexValue? (c : Char) : Option Nat :=
  if c.isDigit then some (c.toNat - '0'.toNat)
  else if 'a' ≤ c ∧ c ≤ 'f' then some (c.toNat - 'a'.toNat + 10)
  else if 'A' ≤ c ∧ c ≤ 'F' then some (c.toNat - 'A'.toNat + 10)
  else none

def hexUnit? (a b c d : Char) : Option Nat := do
  return (← hexValue? a) * 4096 + (← hexValue? b) * 256 + (← hexValue? c) * 16 + (← hexValue? d)

def escaped? : Char → Option Char
  | '"' => some '"'
  | '\\' => some '\\'
  | '/' => some '/'
  | 'b' => some '\x08'
  | 'f' => some '\x0c'
  | 'n' => some '\n'
  | 'r' => some '\r'
  | 't' => some '\t'
  | _ => none

def takePieces (acc : List Piece) : List Char → Option (List Piece × List Char)
  | [] => none
  | '"' :: rest => some (acc, rest)
  | '\\' :: 'u' :: a :: b :: c :: d :: rest =>
    match hexUnit? a b c d with
    | some n => takePieces (.unit n :: acc) rest
    | none => none
  | '\\' :: e :: rest =>
    match escaped? e with
    | some c => takePieces (.char c :: acc) rest
    | none => none
  | c :: rest => if c.toNat < 0x20 then none else takePieces (.char c :: acc) rest

/-- The characters of the pieces. A high unit must be followed by a low one,
and the two stand for one character. -/
def joinPieces : List Piece → Option (List Char)
  | [] => some []
  | .char c :: rest => (joinPieces rest).map (c :: ·)
  | .unit h :: .unit l :: rest =>
    if 0xD800 ≤ h ∧ h < 0xDC00 then
      if 0xDC00 ≤ l ∧ l < 0xE000 then
        (joinPieces rest).map (Char.ofNat (0x10000 + (h - 0xD800) * 0x400 + (l - 0xDC00)) :: ·)
      else none
    else if 0xDC00 ≤ h ∧ h < 0xE000 then none
    else (joinPieces (.unit l :: rest)).map (Char.ofNat h :: ·)
  | .unit n :: rest =>
    if 0xD800 ≤ n ∧ n < 0xE000 then none else (joinPieces rest).map (Char.ofNat n :: ·)

theorem takePieces_length {acc : List Piece} {cs : List Char} {p : List Piece} {r : List Char}
    (h : takePieces acc cs = some (p, r)) : r.length < cs.length := by
  fun_induction takePieces acc cs <;> simp_all <;> omega

def takeExponent (cs : List Char) : Option ((Bool × List Char) × List Char) :=
  let (minus, ds) :=
    match cs with
    | '+' :: r => (false, r)
    | '-' :: r => (true, r)
    | r => (false, r)
  let digits := ds.takeWhile Char.isDigit
  if digits.isEmpty then none else some ((minus, digits), ds.dropWhile Char.isDigit)

def takeFraction (cs : List Char) : Option (List Char × List Char) :=
  match cs with
  | '.' :: r =>
    let digits := r.takeWhile Char.isDigit
    if digits.isEmpty then none else some (digits, r.dropWhile Char.isDigit)
  | r => some ([], r)

def takeWhole (cs : List Char) : Option (List Char × List Char) :=
  match cs with
  | '0' :: r => some (['0'], r)
  | c :: r => if c.isDigit then some (c :: r.takeWhile Char.isDigit, r.dropWhile Char.isDigit) else none
  | [] => none

def takeNumeral (negative : Bool) (cs : List Char) : Option (Numeral × List Char) := do
  let (whole, r) ← takeWhole cs
  let (fraction, r) ← takeFraction r
  match r with
  | 'e' :: r => (takeExponent r).map fun (e, r) => (⟨negative, whole, fraction, some e⟩, r)
  | 'E' :: r => (takeExponent r).map fun (e, r) => (⟨negative, whole, fraction, some e⟩, r)
  | r => some (⟨negative, whole, fraction, none⟩, r)

def takeToken : List Char → Option (Token × List Char)
  | '\x7b' :: r => some (.openObject, r)
  | '\x7d' :: r => some (.closeObject, r)
  | '[' :: r => some (.openList, r)
  | ']' :: r => some (.closeList, r)
  | ':' :: r => some (.colon, r)
  | ',' :: r => some (.comma, r)
  | 'n' :: 'u' :: 'l' :: 'l' :: r => some (.leaf .null, r)
  | 't' :: 'r' :: 'u' :: 'e' :: r => some (.leaf (.bool true), r)
  | 'f' :: 'a' :: 'l' :: 's' :: 'e' :: r => some (.leaf (.bool false), r)
  | '"' :: r =>
    (takePieces [] r).map fun (p, r) => (.quoted ((joinPieces p.reverse).map String.ofList), r)
  | '-' :: r => (takeNumeral true r).map fun (n, r) => (.leaf n.leaf, r)
  | r => (takeNumeral false r).map fun (n, r) => (.leaf n.leaf, r)

theorem length_dropWhile_le (p : Char → Bool) (cs : List Char) :
    (cs.dropWhile p).length ≤ cs.length :=
  (List.dropWhile_suffix p).length_le

theorem takeWhole_length {cs w r : List Char} (h : takeWhole cs = some (w, r)) :
    r.length < cs.length := by
  unfold takeWhole at h
  split at h
  · simp only [Option.some.injEq, Prod.mk.injEq] at h
    obtain ⟨-, rfl⟩ := h
    exact Nat.lt_succ_self _
  · rename_i c r' _
    split at h
    · simp only [Option.some.injEq, Prod.mk.injEq] at h
      obtain ⟨-, rfl⟩ := h
      exact Nat.lt_succ_of_le (length_dropWhile_le _ _)
    · simp at h
  · simp at h

theorem takeFraction_length {cs w r : List Char} (h : takeFraction cs = some (w, r)) :
    r.length ≤ cs.length := by
  unfold takeFraction at h
  split at h
  · rename_i r'
    simp only at h
    split at h
    · simp at h
    · simp only [Option.some.injEq, Prod.mk.injEq] at h
      obtain ⟨-, rfl⟩ := h
      exact Nat.le_succ_of_le (length_dropWhile_le _ _)
  · simp only [Option.some.injEq, Prod.mk.injEq] at h
    obtain ⟨-, rfl⟩ := h
    exact Nat.le_refl _

theorem takeExponent_length {cs r : List Char} {e : Bool × List Char}
    (h : takeExponent cs = some (e, r)) : r.length ≤ cs.length := by
  unfold takeExponent at h
  split at h
  rename_i minus ds hm
  have hd : ds.length ≤ cs.length := by
    split at hm <;> simp only [Prod.mk.injEq] at hm <;> obtain ⟨-, rfl⟩ := hm <;>
      simp
  simp only at h
  split at h
  · simp at h
  · simp only [Option.some.injEq, Prod.mk.injEq] at h
    obtain ⟨-, rfl⟩ := h
    exact Nat.le_trans (length_dropWhile_le _ _) hd

theorem takeNumeral_length {negative : Bool} {cs r : List Char} {n : Numeral}
    (h : takeNumeral negative cs = some (n, r)) : r.length < cs.length := by
  unfold takeNumeral at h
  simp only [Option.bind_eq_bind, Option.bind_eq_some_iff, Prod.exists] at h
  obtain ⟨w, r₁, hw, f, r₂, hf, h⟩ := h
  have h₁ := takeWhole_length hw
  have h₂ := takeFraction_length hf
  split at h
  · obtain ⟨⟨e, r₃⟩, he, h⟩ := Option.map_eq_some_iff.1 h
    have h₃ := takeExponent_length he
    simp only [Prod.mk.injEq] at h
    obtain ⟨-, rfl⟩ := h
    simp only [List.length_cons] at h₂
    omega
  · obtain ⟨⟨e, r₃⟩, he, h⟩ := Option.map_eq_some_iff.1 h
    have h₃ := takeExponent_length he
    simp only [Prod.mk.injEq] at h
    obtain ⟨-, rfl⟩ := h
    simp only [List.length_cons] at h₂
    omega
  · simp only [Option.some.injEq, Prod.mk.injEq] at h
    obtain ⟨-, rfl⟩ := h
    omega

theorem takeToken_length {cs r : List Char} {t : Token} (h : takeToken cs = some (t, r)) :
    r.length < cs.length := by
  unfold takeToken at h
  split at h
  case h_10 =>
    obtain ⟨⟨p, r'⟩, hp, h⟩ := Option.map_eq_some_iff.1 h
    have := takePieces_length hp
    simp only [Prod.mk.injEq] at h
    obtain ⟨-, rfl⟩ := h
    exact Nat.lt_succ_of_lt this
  case h_11 =>
    obtain ⟨⟨n, r'⟩, hn, h⟩ := Option.map_eq_some_iff.1 h
    have := takeNumeral_length hn
    simp only [Prod.mk.injEq] at h
    obtain ⟨-, rfl⟩ := h
    exact Nat.lt_succ_of_lt this
  case h_12 =>
    obtain ⟨⟨n, r'⟩, hn, h⟩ := Option.map_eq_some_iff.1 h
    have := takeNumeral_length hn
    simp only [Prod.mk.injEq] at h
    obtain ⟨-, rfl⟩ := h
    exact this
  all_goals
    simp only [Option.some.injEq, Prod.mk.injEq] at h
    obtain ⟨-, rfl⟩ := h
    simp only [List.length_cons]
    omega

end PoolLedger.Json
