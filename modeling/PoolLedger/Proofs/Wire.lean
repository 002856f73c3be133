import Mathlib.Algebra.Order.Group.Nat
import Mathlib.Tactic.Ring
import PoolLedger.Proofs.Traverse
import PoolLedger.Wire

/-! Fields that are written are read back, whatever bytes follow them. So a message that
is written field by field is read as the list of its fields. -/

namespace PoolLedger.Wire

/-- The length of a byte string, as an unsigned word of 64 bits can hold it. -/
def Short (b : Bytes) : Prop := b.length < 18446744073709551616

instance (b : Bytes) : Decidable (Short b) := inferInstanceAs (Decidable (_ < _))

namespace Short

variable {a b : Bytes} {number : Nat}

theorem left (h : Short (a ++ b)) : Short a := by
  rw [Short, List.length_append] at h
  rw [Short]
  omega

theorem right (h : Short (a ++ b)) : Short b := by
  rw [Short, List.length_append] at h
  rw [Short]
  omega

theorem of_mem {α : Type} {f : α → Bytes} {xs : List α} (h : Short (xs.flatMap f)) {x : α}
    (hx : x ∈ xs) : Short (f x) := by
  obtain ⟨front, back, rfl⟩ := List.append_of_mem hx
  rw [List.flatMap_append, List.flatMap_cons] at h
  exact h.right.left

theorem of_writeBytes (h : Short (writeBytes number b)) : Short b := h.right

theorem of_writeBytesField (h : Short (writeBytesField number b)) : Short b := by
  unfold writeBytesField at h
  split at h
  · rename_i hempty
    rwa [List.isEmpty_iff.1 hempty]
  · exact h.of_writeBytes

end Short

theorem readVarintFrom_write {left weight m n : Nat} (h : n < 2 * 128 ^ left) (rest : Bytes) :
    readVarintFrom left weight m (writeVarint n ++ rest) = some (m + n * weight, rest) := by
  -- on the bytes left, each of which takes seven bits off the number
  induction left generalizing weight m n with
  | zero =>
    have hn : n < 2 := by simpa using h
    have hbyte := UInt8.toNat_ofNat_of_lt' (show n < 256 by omega)
    rw [writeVarint, dif_pos (by omega), List.singleton_append, readVarintFrom, hbyte, if_pos hn]
  | succ left ih =>
    rw [writeVarint]
    split
    · rename_i hn
      have hbyte := UInt8.toNat_ofNat_of_lt' (show n < 256 by omega)
      rw [List.singleton_append, readVarintFrom, hbyte, if_pos hn]
    · rename_i hn
      have hbyte := UInt8.toNat_ofNat_of_lt' (show n % 128 + 128 < 256 by omega)
      have hrest : n / 128 < 2 * 128 ^ left := by
        rw [Nat.div_lt_iff_lt_mul (by omega), Nat.mul_assoc, ← Nat.pow_succ]
        exact h
      have hsum : m + n % 128 * weight + n / 128 * (weight * 128) = m + n * weight := by
        conv_rhs => rw [← Nat.mod_add_div n 128]
        ring
      rw [List.cons_append, readVarintFrom, hbyte, if_neg (by omega), Nat.add_sub_cancel,
        ih hrest, hsum]

theorem readVarint_write {n : Nat} (h : n < 18446744073709551616) (rest : Bytes) :
    readVarint (writeVarint n ++ rest) = some (n, rest) := by
  have hread : readVarintFrom 9 1 0 (writeVarint n ++ rest) = some (0 + n * 1, rest) :=
    readVarintFrom_write h rest
  rwa [Nat.zero_add, Nat.mul_one] at hread

def IsNumber (number : Nat) : Prop := 1 ≤ number ∧ number < 536870912

instance (number : Nat) : Decidable (IsNumber number) := inferInstanceAs (Decidable (_ ∧ _))

variable {number wireType : Nat} {b : Bytes}

theorem readKey_write (hn : IsNumber number) (hw : wireType < 8) (rest : Bytes) :
    readKey (writeKey number wireType ++ rest) = some ((number, wireType), rest) := by
  obtain ⟨hpos, hlt⟩ := hn
  have hnumber : (number * 8 + wireType) / 8 = number := by omega
  have htype : (number * 8 + wireType) % 8 = wireType := by omega
  rw [readKey, writeKey, readVarint_write (by omega)]
  simp only [Option.bind_eq_bind, Option.bind_some, hnumber, htype]
  rw [if_pos ⟨by omega, hpos⟩]

theorem takeExactly_append (b rest : Bytes) : takeExactly b.length (b ++ rest) = some (b, rest) := by
  rw [takeExactly, if_pos (by simp), List.take_left, List.drop_left]

/-- A string of bytes is read as some fields, after any others and before any bytes. -/
def Spells (bytes : Bytes) (fields : List Field) : Prop :=
  ∀ limit acc rest, 0 < limit →
    readFieldsFrom limit [] acc (bytes ++ rest) =
      readFieldsFrom limit [] (fields.reverse ++ acc) rest

theorem spells_nil : Spells [] [] := fun _ _ _ _ => rfl

theorem Spells.append {a b : Bytes} {fields more : List Field} (ha : Spells a fields)
    (hb : Spells b more) : Spells (a ++ b) (fields ++ more) := by
  intro limit acc rest hlimit
  rw [List.append_assoc, ha limit acc _ hlimit, hb limit _ rest hlimit, List.reverse_append,
    List.append_assoc]

theorem Spells.flatMap {α : Type} {f : α → Bytes} {g : α → Field} {xs : List α}
    (h : ∀ x ∈ xs, Spells (f x) [g x]) : Spells (xs.flatMap f) (xs.map g) := by
  induction xs with
  | nil => exact spells_nil
  | cons x xs ih =>
    rw [List.flatMap_cons, List.map_cons, ← List.singleton_append]
    exact (h x List.mem_cons_self).append (ih fun y hy => h y (List.mem_cons_of_mem x hy))

theorem spells_field {content : Bytes} {payload : Payload} (hn : IsNumber number)
    (hw : wireType < 3) (h : ∀ rest, readPayload wireType (content ++ rest) = some (payload, rest)) :
    Spells (writeKey number wireType ++ content) [⟨number, payload⟩] := by
  intro limit acc rest hlimit
  have hkey := readKey_write hn (show wireType < 8 by omega) (content ++ rest)
  have hne : (writeKey number wireType ++ (content ++ rest)).isEmpty = false := by
    have hshorter := readKey_length hkey
    cases hbytes : writeKey number wireType ++ (content ++ rest) with
    | nil => rw [hbytes] at hshorter; simp at hshorter
    | cons => rfl
  rw [List.append_assoc, readFieldsFrom]
  simp only [hne, Bool.false_eq_true, if_false]
  split
  · rename_i hnone
    cases hkey.symm.trans hnone
  · rename_i hsome
    cases hkey.symm.trans hsome
    rw [if_neg (by omega), if_neg (by rw [List.length_nil]; omega),
      if_neg (by omega)]
    split
    · rename_i hnone
      cases (h rest).symm.trans hnone
    · rename_i hsome
      cases (h rest).symm.trans hsome
      rfl

theorem spells_writeBytes (hn : IsNumber number) (h : Short (writeBytes number b)) :
    Spells (writeBytes number b) [⟨number, .bytes b⟩] := by
  rw [writeBytes, List.append_assoc]
  refine spells_field hn (by omega) fun rest => ?_
  rw [List.append_assoc, readPayload, readVarint_write h.of_writeBytes]
  simp only [Option.bind_eq_bind, Option.bind_some, takeExactly_append]
  rfl

theorem spells_flatMap_writeBytes (hn : IsNumber number) {α : Type} {f : α → Bytes} {xs : List α}
    (h : Short (xs.flatMap fun x => writeBytes number (f x))) :
    Spells (xs.flatMap fun x => writeBytes number (f x))
      (xs.map fun x => ⟨number, .bytes (f x)⟩) :=
  .flatMap fun _ hx => spells_writeBytes hn (h.of_mem hx)

def bytesFields (number : Nat) (b : Bytes) : List Field :=
  if b.isEmpty then [] else [⟨number, .bytes b⟩]

theorem spells_writeBytesField (hn : IsNumber number) (h : Short (writeBytesField number b)) :
    Spells (writeBytesField number b) (bytesFields number b) := by
  unfold writeBytesField at h ⊢
  unfold bytesFields
  split
  · exact spells_nil
  · rename_i hne
    rw [if_neg hne] at h
    exact spells_writeBytes hn h

def varintFields (number n : Nat) : List Field := if n = 0 then [] else [⟨number, .varint n⟩]

theorem spells_writeVarintField (hn : IsNumber number) {n : Nat} (h : n < 18446744073709551616) :
    Spells (writeVarintField number n) (varintFields number n) := by
  unfold writeVarintField varintFields
  split
  · exact spells_nil
  · refine spells_field hn (by omega) fun rest => ?_
    rw [readPayload, readVarint_write h]
    rfl

theorem Spells.readFields? {bytes : Bytes} {fields : List Field} (h : Spells bytes fields)
    {above : Nat} (ha : above < maxDepth) : readFields? above bytes = some fields := by
  have hread := h (maxDepth - above) [] [] (by omega)
  rw [List.append_nil, List.append_nil] at hread
  rw [Wire.readFields?, hread, readFieldsFrom]
  simp

def under (number : Nat) (fields : List Field) : List Field :=
  fields.filter fun f => f.number = number

@[simp] theorem under_append (number : Nat) (xs ys : List Field) :
    under number (xs ++ ys) = under number xs ++ under number ys :=
  List.filter_append ..

@[simp] theorem under_bytesFields (number m : Nat) (b : Bytes) :
    under number (bytesFields m b) = if m = number then bytesFields m b else [] := by
  unfold under bytesFields
  split <;> split <;> simp_all

@[simp] theorem under_varintFields (number m n : Nat) :
    under number (varintFields m n) = if m = number then varintFields m n else [] := by
  unfold under varintFields
  split <;> split <;> simp_all

@[simp] theorem under_map (number m : Nat) {α : Type} (f : α → Payload) (xs : List α) :
    under number (xs.map fun x => ⟨m, f x⟩) =
      if m = number then xs.map fun x => ⟨m, f x⟩ else [] := by
  unfold under
  split <;> simp_all

variable {fields : List Field}

theorem byteStrings?_of_under {α : Type} (f : α → Bytes) (xs : List α)
    (h : under number fields = xs.map fun x => ⟨number, .bytes (f x)⟩) :
    byteStrings? number fields = some (xs.map f) := by
  change (under number fields).mapM _ = _
  rw [h, Traverse.mapM_eq_some, List.map_map, List.map_map]
  rfl

theorem bytesField?_of_under (h : under number fields = bytesFields number b) :
    bytesField? number fields = some b := by
  unfold bytesFields at h
  split at h
  · rename_i hempty
    rw [bytesField?, byteStrings?_of_under id [] h, List.isEmpty_iff.1 hempty]
    rfl
  · rw [bytesField?, byteStrings?_of_under id [b] h]
    rfl

theorem text?_utf8 (s : String) : text? (utf8 s) = some s := by
  have hbytes : ByteArray.mk (utf8 s).toArray = s.toByteArray := rfl
  rw [text?, hbytes, String.fromUTF8?, dif_pos s.isValidUTF8]
  rfl

theorem textField?_of_under {s : String} (h : under number fields = bytesFields number (utf8 s)) :
    textField? number fields = some s := by
  have htext := text?_utf8 s
  unfold bytesFields at h
  split at h
  · rename_i hempty
    rw [List.isEmpty_iff.1 hempty] at htext
    rw [textField?, byteStrings?_of_under id [] h]
    exact htext
  · rw [textField?, byteStrings?_of_under id [utf8 s] h]
    simp [htext]

theorem varintField?_of_under {n : Nat} (h : under number fields = varintFields number n) :
    varintField? number fields = some n := by
  change ((under number fields).mapM _ >>= _) = _
  rw [h, varintFields]
  split
  · simp_all
  · rfl

end PoolLedger.Wire
