import PoolLedger.Asset
import PoolLedger.Proofs.Json.RoundTrip
import PoolLedger.Proofs.Keys

/-! Assets in text. Amounts are read from decimal digits and from nothing else, and
read back from their own; a list of assets reads back from its JSON, whatever the
names in it. -/

namespace PoolLedger

namespace Text

theorem foldlM_pushDigit {limit : Nat} {fault : IntegerFault} {cs : List Char} {n : Nat}
    (hd : ∀ c ∈ cs, c.isDigit = true) (hl : Nat.ofDigitChars 10 cs n ≤ limit) :
    cs.foldlM (pushDigit limit fault) n = .ok (Nat.ofDigitChars 10 cs n) := by
  induction cs generalizing n with
  | nil => rfl
  | cons c cs ih =>
    have hv : n * 10 + digitValue c = 10 * n + (c.toNat - '0'.toNat) := by
      rw [digitValue, Nat.mul_comm]
    rw [Nat.ofDigitChars_cons] at hl ⊢
    -- the value of all digits bounds that of the digits so far
    have hle : 10 * n + (c.toNat - '0'.toNat) ≤ limit := by
      refine Nat.le_trans ?_ hl
      rw [Nat.ofDigitChars_eq_ofDigitChars_zero]
      exact Nat.le_trans (Nat.le_mul_of_pos_left _ (Nat.pow_pos (by decide)))
        (Nat.le_add_right _ _)
    rw [List.foldlM_cons, pushDigit, if_pos (hd c List.mem_cons_self), hv, if_pos hle]
    exact ih (fun d hd' => hd d (List.mem_cons_of_mem c hd')) hl

theorem of_foldlM_pushDigit {limit : Nat} {fault : IntegerFault} {cs : List Char} {n m : Nat}
    (h : cs.foldlM (pushDigit limit fault) n = .ok m) :
    (∀ c ∈ cs, c.isDigit = true) ∧ Nat.ofDigitChars 10 cs n = m := by
  induction cs generalizing n with
  | nil => exact ⟨by simp, Except.ok.inj h⟩
  | cons c cs ih =>
    rw [List.foldlM_cons, pushDigit] at h
    split at h
    · rename_i hc
      split at h
      · obtain ⟨hd, hm⟩ := ih h
        rw [digitValue, Nat.mul_comm] at hm
        exact ⟨List.forall_mem_cons.2 ⟨hc, hd⟩, Nat.ofDigitChars_cons.trans hm⟩
      · cases h
    · cases h

theorem readDigits_toDigits {limit n : Nat} (fault : IntegerFault) (h : n ≤ limit) :
    readDigits limit fault (Nat.toDigits 10 n) = .ok n := by
  have hv : Nat.ofDigitChars 10 (Nat.toDigits 10 n) 0 = n := Nat.ofDigitChars_ten_toDigits
  rw [readDigits, foldlM_pushDigit
    (fun c hc => Nat.isDigit_of_mem_toDigits (by decide) (by decide) hc) (by rwa [hv]), hv]

def IsNumeral (s : String) (n : Nat) : Prop :=
  ∃ digits, digits ≠ [] ∧ (∀ c ∈ digits, c.isDigit = true) ∧ Nat.ofDigitChars 10 digits 0 = n ∧
    (s.toList = digits ∨ s.toList = '+' :: digits)

end Text

theorem Ranged.readChars_of_digits {lo hi : Int} {digits : List Char} (hne : digits ≠ [])
    (hd : ∀ c ∈ digits, c.isDigit = true) :
    (readChars digits : Except IntegerFault (Ranged lo hi)) = readUnsigned digits := by
  have hsign (c : Char) (cs : List Char) (hc : c.isDigit = false) : digits ≠ c :: cs := by
    rintro rfl
    rw [hd c List.mem_cons_self] at hc
    cases hc
  unfold readChars
  split
  · exact absurd rfl hne
  · exact absurd rfl (hsign _ _ rfl)
  · exact absurd rfl (hsign _ _ rfl)
  · exact absurd rfl (hsign _ _ rfl)
  · exact absurd rfl (hsign _ _ rfl)
  · rfl

theorem Ranged.readChars_toDigits {lo hi : Int} {a : Ranged lo hi} {n : Nat} (h : a.val = n) :
    (readChars (Nat.toDigits 10 n) : Except IntegerFault (Ranged lo hi)) = .ok a := by
  have hn : n ≤ hi.toNat := by
    have := a.le_hi
    omega
  have ho : (ofInt? (n : Int) : Option (Ranged lo hi)) = some a := ofInt?_eq_some_iff.2 h
  rw [readChars_of_digits Nat.toDigits_ne_nil
    fun c hc => Nat.isDigit_of_mem_toDigits (by decide) (by decide) hc, readUnsigned,
    Text.readDigits_toDigits _ hn]
  simp only [bind, Except.bind, ho]

namespace Amount

theorem read?_toString (a : Amount) : (Ranged.read? (toString a) : Option Amount) = some a := by
  have hn : a.val = a.toNat := (Int.toNat_of_nonneg a.lo_le).symm
  rw [Ranged.read?, Ranged.read, a.toList_toString, Ranged.readChars_toDigits hn]
  rfl

theorem readUnsigned_eq_ok {a : Amount} {digits : List Char} :
    Ranged.readUnsigned digits = .ok a ↔
      (∀ c ∈ digits, c.isDigit = true) ∧ (Nat.ofDigitChars 10 digits 0 : Int) = a.val := by
  rw [Ranged.readUnsigned, Text.readDigits]
  constructor
  · intro h
    cases hread : digits.foldlM (Text.pushDigit _ .tooLarge) 0 with
    | error e =>
      rw [hread] at h
      cases h
    | ok n =>
      obtain ⟨hd, hn⟩ := Text.of_foldlM_pushDigit hread
      rw [hread] at h
      simp only [bind, Except.bind] at h
      split at h
      · rename_i b hb
        obtain rfl := Except.ok.inj h
        exact ⟨hd, by rw [hn, Ranged.ofInt?_eq_some_iff.1 hb]⟩
      · cases h
  · rintro ⟨hd, hn⟩
    have hle := a.le_hi
    rw [Text.foldlM_pushDigit hd (by omega)]
    have ha : (Ranged.ofInt? (Nat.ofDigitChars 10 digits 0 : Int) : Option Amount) = some a :=
      Ranged.ofInt?_eq_some_iff.2 hn.symm
    simp only [bind, Except.bind, ha]

theorem isNumeral_of_readUnsigned {s : String} {a : Amount} {digits : List Char}
    (hne : digits ≠ []) (hs : s.toList = digits ∨ s.toList = '+' :: digits)
    (h : Ranged.readUnsigned digits = .ok a) : ∃ n, Text.IsNumeral s n ∧ (n : Int) = a.val := by
  obtain ⟨hd, hn⟩ := readUnsigned_eq_ok.1 h
  exact ⟨_, ⟨digits, hne, hd, rfl, hs⟩, hn⟩

/-- An amount is read from its numerals and from nothing else. -/
theorem read?_eq_some_iff {s : String} {a : Amount} :
    Ranged.read? s = some a ↔ ∃ n, Text.IsNumeral s n ∧ (n : Int) = a.val := by
  have hread : Ranged.read? s = some a ↔ Ranged.readChars s.toList = .ok a := by
    rw [Ranged.read?, Ranged.read]
    cases Ranged.readChars s.toList <;> simp [Except.toOption]
  rw [hread]
  constructor
  · intro h
    unfold Ranged.readChars at h
    split at h
    · cases h
    · cases h
    · cases h
    · rename_i digits hne hs
      exact isNumeral_of_readUnsigned hne (Or.inr hs) h
    · cases h
    · rename_i hne _ _ _ _
      exact isNumeral_of_readUnsigned hne (Or.inl rfl) h
  · rintro ⟨n, ⟨digits, hne, hd, rfl, hs | hs⟩, hn⟩
    · rw [hs, Ranged.readChars_of_digits hne hd, readUnsigned_eq_ok]
      exact ⟨hd, hn⟩
    · rw [hs, Ranged.readChars, readUnsigned_eq_ok]
      · exact ⟨hd, hn⟩
      · exact hne

end Amount

theorem Json.fields?_object {members : List (String × Json)} {names : List String}
    {values : List (Option Json)} (h : names.map (single? members) = values.map some) :
    (object members).fields? names = some ⟨false, values⟩ := by
  rw [fields?, Traverse.mapM_eq_some.2 h, Option.map_some]

namespace AssetId

theorem plain_toJson (i : AssetId) : i.toJson.plain = true := by
  cases i <;> rfl

theorem ofJson?_toJson (i : AssetId) : ofJson? i.toJson = some i := by
  cases i <;> rfl

end AssetId

namespace Asset

theorem plain_toJson (a : Asset) : a.toJson.plain = true := by
  simp [toJson, Json.plain, Json.plainMembers, AssetId.plain_toJson, Amount.toJson]

theorem ofJson?_toJson (a : Asset) : ofJson? a.toJson = some a := by
  have hf : a.toJson.fields? ["info", "amount"] =
      some ⟨false, [some a.id.toJson, some a.amount.toJson]⟩ := rfl
  have ha : a.amount.toJson.amount? = some a.amount := Amount.read?_toString a.amount
  simp [ofJson?, hf, Json.Fields.required, Json.Fields.at, AssetId.ofJson?_toJson, ha]

theorem readList?_writeList (xs : List Asset) : readList? (writeList xs) = some xs := by
  have hp : Json.plainItems (xs.map toJson) = true := by
    induction xs with
    | nil => rfl
    | cons x xs ih => rw [List.map_cons, Json.plainItems, plain_toJson, ih, Bool.and_self]
  rw [readList?, writeList, Json.ofString?_compact (by rwa [Json.plain]), Option.bind_some,
    Json.list?, Traverse.mapM_eq_some, List.map_map]
  apply List.map_congr_left
  intro a _
  exact ofJson?_toJson a

end Asset

end PoolLedger
