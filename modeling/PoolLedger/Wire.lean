/-! The binary wire form of messages: numbered fields, each a varint, a fixed
word, a byte string or a group. Reading keeps the fields in order and skips
the content of groups, which must close with their own number. -/

namespace PoolLedger.Wire

abbrev Bytes := List UInt8

inductive Payload
  | varint (n : Nat)
  | bytes (b : Bytes)
  | skipped
deriving DecidableEq

structure Field where
  number : Nat
  payload : Payload
deriving DecidableEq

/-- Reads a varint whose bytes so far gave `n`, each with seven bits. The next
byte counts `weight`. It may be followed by `left` more, the last of which
holds a single bit. -/
def readVarintFrom (left weight n : Nat) : Bytes → Option (Nat × Bytes)
  | [] => none
  | b :: rest =>
    match left with
    | 0 => if b.toNat < 2 then some (n + b.toNat * weight, rest) else none
    | left + 1 =>
      if b.toNat < 128 then some (n + b.toNat * weight, rest)
      else readVarintFrom left (weight * 128) (n + (b.toNat - 128) * weight) rest

def readVarint (bytes : Bytes) : Option (Nat × Bytes) := readVarintFrom 9 1 0 bytes

theorem readVarintFrom_length {left weight n v : Nat} {bs r : Bytes}
    (h : readVarintFrom left weight n bs = some (v, r)) : r.length < bs.length := by
  fun_induction readVarintFrom left weight n bs <;> simp_all
  omega

theorem readVarint_length {v : Nat} {bs r : Bytes} (h : readVarint bs = some (v, r)) :
    r.length < bs.length :=
  readVarintFrom_length h

def readKey (bytes : Bytes) : Option ((Nat × Nat) × Bytes) := do
  let (key, rest) ← readVarint bytes
  if key ≤ 4294967295 ∧ 1 ≤ key / 8 then some ((key / 8, key % 8), rest) else none

def takeExactly (n : Nat) (bytes : Bytes) : Option (Bytes × Bytes) :=
  if n ≤ bytes.length then some (bytes.take n, bytes.drop n) else none

def readPayload (wireType : Nat) (bytes : Bytes) : Option (Payload × Bytes) :=
  match wireType with
  | 0 => (readVarint bytes).map fun (n, r) => (.varint n, r)
  | 1 => (takeExactly 8 bytes).map fun (_, r) => (.skipped, r)
  | 2 => do
    let (n, rest) ← readVarint bytes
    let (b, rest) ← takeExactly n rest
    return (.bytes b, rest)
  | 5 => (takeExactly 4 bytes).map fun (_, r) => (.skipped, r)
  | _ => none

theorem takeExactly_length {n : Nat} {bs b r : Bytes} (h : takeExactly n bs = some (b, r)) :
    r.length ≤ bs.length := by
  unfold takeExactly at h
  split at h
  · simp only [Option.some.injEq, Prod.mk.injEq] at h
    obtain ⟨-, rfl⟩ := h
    simp
  · simp at h

theorem readKey_length {k : Nat × Nat} {bs r : Bytes} (h : readKey bs = some (k, r)) :
    r.length < bs.length := by
  simp only [readKey, Option.bind_eq_bind, Option.bind_eq_some_iff, Prod.exists] at h
  obtain ⟨key, r', hk, h⟩ := h
  have := readVarint_length hk
  split at h
  · simp only [Option.some.injEq, Prod.mk.injEq] at h
    obtain ⟨-, rfl⟩ := h
    exact this
  · simp at h

theorem readPayload_length {t : Nat} {p : Payload} {bs r : Bytes}
    (h : readPayload t bs = some (p, r)) : r.length ≤ bs.length := by
  unfold readPayload at h
  split at h
  · obtain ⟨⟨n, r'⟩, hv, h⟩ := Option.map_eq_some_iff.1 h
    have := readVarint_length hv
    simp only [Prod.mk.injEq] at h
    obtain ⟨-, rfl⟩ := h
    omega
  · obtain ⟨⟨n, r'⟩, hv, h⟩ := Option.map_eq_some_iff.1 h
    have := takeExactly_length hv
    simp only [Prod.mk.injEq] at h
    obtain ⟨-, rfl⟩ := h
    exact this
  · simp only [Option.bind_eq_bind, Option.bind_eq_some_iff, Prod.exists] at h
    obtain ⟨n, r₁, hv, b, r₂, ht, h⟩ := h
    have := readVarint_length hv
    have := takeExactly_length ht
    simp only [Option.pure_def, Option.some.injEq, Prod.mk.injEq] at h
    obtain ⟨-, rfl⟩ := h
    omega
  · obtain ⟨⟨n, r'⟩, hv, h⟩ := Option.map_eq_some_iff.1 h
    have := takeExactly_length hv
    simp only [Prod.mk.injEq] at h
    obtain ⟨-, rfl⟩ := h
    exact this
  · simp at h

def keep (groups : List Nat) (f : Field) (acc : List Field) : List Field :=
  if groups.isEmpty then f :: acc else acc

/-- Reads fields with the groups that are open, innermost first. A field or
group that stands under `limit` open groups is too deep. -/
def readFieldsFrom (limit : Nat) (groups : List Nat) (acc : List Field) (bytes : Bytes) :
    Option (List Field) :=
  if bytes.isEmpty then
    if groups.isEmpty then some acc.reverse else none
  else
    match hk : readKey bytes with
    | none => none
    | some ((number, wireType), rest) =>
      have := readKey_length hk
      if wireType = 4 then
        match groups with
        | [] => none
        | g :: outer => if g = number then readFieldsFrom limit outer acc rest else none
      else if limit ≤ groups.length then none
      else if wireType = 3 then
        readFieldsFrom limit (number :: groups) (keep groups ⟨number, .skipped⟩ acc) rest
      else
        match hp : readPayload wireType rest with
        | none => none
        | some (payload, rest') =>
          have := readPayload_length hp
          readFieldsFrom limit groups (keep groups ⟨number, payload⟩ acc) rest'
termination_by bytes.length

def maxDepth : Nat := 100

def readFields? (above : Nat) (bytes : Bytes) : Option (List Field) :=
  readFieldsFrom (maxDepth - above) [] [] bytes

def byteStrings? (number : Nat) (fields : List Field) : Option (List Bytes) :=
  (fields.filter fun f => f.number = number).mapM fun f =>
    match f.payload with
    | .bytes b => some b
    | _ => none

def text? (b : Bytes) : Option String := String.fromUTF8? ⟨b.toArray⟩

def bytesField? (number : Nat) (fields : List Field) : Option Bytes :=
  (byteStrings? number fields).map fun bs => bs.getLast?.getD []

def textField? (number : Nat) (fields : List Field) : Option String := do
  let texts ← (← byteStrings? number fields).mapM text?
  return texts.getLast?.getD ""

def varintField? (number : Nat) (fields : List Field) : Option Nat := do
  let values ← (fields.filter fun f => f.number = number).mapM fun f =>
    match f.payload with
    | .varint n => some n
    | _ => none
  return values.getLast?.getD 0

def writeVarint (n : Nat) : Bytes :=
  if h : n < 128 then [UInt8.ofNat n]
  else UInt8.ofNat (n % 128 + 128) :: writeVarint (n / 128)
termination_by n
decreasing_by omega

def writeKey (number wireType : Nat) : Bytes := writeVarint (number * 8 + wireType)

def writeBytes (number : Nat) (b : Bytes) : Bytes :=
  writeKey number 2 ++ writeVarint b.length ++ b

def writeBytesField (number : Nat) (b : Bytes) : Bytes :=
  if b.isEmpty then [] else writeBytes number b

def utf8 (s : String) : Bytes := s.toUTF8.data.toList

def writeTextField (number : Nat) (s : String) : Bytes := writeBytesField number (utf8 s)

def writeVarintField (number n : Nat) : Bytes :=
  if n = 0 then [] else writeKey number 0 ++ writeVarint n

end PoolLedger.Wire
