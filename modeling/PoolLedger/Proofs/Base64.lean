import PoolLedger.Base64

/-! Base64 reads back: the text of a byte string gives the bytes again, and no
other text gives them. -/

namespace PoolLedger.Base64

theorem value?_symbol : ∀ n < 64, value? (symbol n) = some n ∧ symbol n ≠ '=' := by
  decide

theorem ofNat_of_eq {n : Nat} {a : UInt8} (h : n = a.toNat) : UInt8.ofNat n = a := by
  rw [h, UInt8.ofNat_toNat]

theorem joined_first (a : UInt8) {n : Nat} (hn : n < 16) :
    UInt8.ofNat (a.toNat / 4 * 4 + (a.toNat % 4 * 16 + n) / 16) = a :=
  ofNat_of_eq (by omega)

theorem joined_second (b : UInt8) (m : Nat) {n : Nat} (hn : n < 4) :
    UInt8.ofNat ((m * 16 + b.toNat / 16) % 16 * 16 + (b.toNat % 16 * 4 + n) / 4) = b := by
  have := b.toNat_lt
  exact ofNat_of_eq (by omega)

theorem joined_third (c : UInt8) (m : Nat) :
    UInt8.ofNat ((m * 4 + c.toNat / 64) % 4 * 64 + c.toNat % 64) = c := by
  have := c.toNat_lt
  exact ofNat_of_eq (by omega)

theorem decodeFrom_four {a b c d : Char} {x y z w : Nat} (hx : value? a = some x)
    (hy : value? b = some y) (hz : value? c = some z) (hw : value? d = some w) (hd : d ≠ '=')
    (acc : List UInt8) (rest : List Char) :
    decodeFrom acc (a :: b :: c :: d :: rest) =
      decodeFrom (UInt8.ofNat (z % 4 * 64 + w) :: UInt8.ofNat (y % 16 * 16 + z / 4) ::
        UInt8.ofNat (x * 4 + y / 16) :: acc) rest := by
  rw [decodeFrom]
  · simp only [hx, hy, hz, hw, Option.bind_eq_bind, Option.bind_some]
  · intro _ he _
    exact hd he
  · intro he _
    exact hd he

theorem decodeFrom_encode (acc bytes : List UInt8) :
    decodeFrom acc (encode bytes) = some (acc.reverse ++ bytes) := by
  induction bytes using encode.induct generalizing acc with
  | case1 a b c rest ih =>
    have ha := a.toNat_lt
    have hb := b.toNat_lt
    have hc := c.toNat_lt
    obtain ⟨hx, -⟩ := value?_symbol (a.toNat / 4) (by omega)
    obtain ⟨hy, -⟩ := value?_symbol (a.toNat % 4 * 16 + b.toNat / 16) (by omega)
    obtain ⟨hz, -⟩ := value?_symbol (b.toNat % 16 * 4 + c.toNat / 64) (by omega)
    obtain ⟨hw, hpad⟩ := value?_symbol (c.toNat % 64) (by omega)
    rw [encode, decodeFrom_four hx hy hz hw hpad, ih, joined_first a (by omega),
      joined_second b _ (by omega), joined_third c]
    simp
  | case2 a b =>
    have ha := a.toNat_lt
    have hb := b.toNat_lt
    obtain ⟨hx, -⟩ := value?_symbol (a.toNat / 4) (by omega)
    obtain ⟨hy, -⟩ := value?_symbol (a.toNat % 4 * 16 + b.toNat / 16) (by omega)
    obtain ⟨hz, hpad⟩ := value?_symbol (b.toNat % 16 * 4) (by omega)
    rw [encode, decodeFrom]
    · simp only [hx, hy, hz, Option.bind_eq_bind, Option.bind_some]
      have hb' : UInt8.ofNat ((a.toNat % 4 * 16 + b.toNat / 16) % 16 * 16 + b.toNat % 16 * 4 / 4) =
          b := joined_second b _ (n := 0) (by omega)
      rw [if_pos (by omega), joined_first a (by omega), hb']
      simp
    · exact hpad
  | case3 a =>
    have ha := a.toNat_lt
    obtain ⟨hx, -⟩ := value?_symbol (a.toNat / 4) (by omega)
    obtain ⟨hy, -⟩ := value?_symbol (a.toNat % 4 * 16) (by omega)
    rw [encode, decodeFrom]
    simp only [hx, hy, Option.bind_eq_bind, Option.bind_some]
    have ha' : UInt8.ofNat (a.toNat / 4 * 4 + a.toNat % 4 * 16 / 16) = a :=
      joined_first a (n := 0) (by omega)
    rw [if_pos (by omega), ha']
    simp
  | case4 => simp [encode, decodeFrom]

theorem decodeText?_encodeText (bytes : List UInt8) :
    decodeText? (encodeText bytes) = some bytes := by
  rw [decodeText?, encodeText, String.toList_ofList, decode?, decodeFrom_encode]
  rfl

theorem toNat_between {a b c : Char} (h : a ≤ c ∧ c ≤ b) :
    a.toNat ≤ c.toNat ∧ c.toNat ≤ b.toNat :=
  ⟨UInt32.le_iff_toNat_le.1 h.1, UInt32.le_iff_toNat_le.1 h.2⟩

theorem symbol_of_value? {c : Char} {n : Nat} (h : value? c = some n) : n < 64 ∧ symbol n = c := by
  have hc (m : Nat) (hm : m = c.toNat) : Char.ofNat m = c := by rw [hm, Char.ofNat_toNat]
  unfold value? at h
  split at h
  · rename_i hrange
    obtain ⟨hlo, hhi⟩ : 65 ≤ c.toNat ∧ c.toNat ≤ 90 := toNat_between hrange
    obtain rfl : c.toNat - 65 = n := Option.some.inj h
    refine ⟨by omega, ?_⟩
    rw [symbol, if_pos (by omega)]
    exact hc (65 + (c.toNat - 65)) (by omega)
  split at h
  · rename_i hrange
    obtain ⟨hlo, hhi⟩ : 97 ≤ c.toNat ∧ c.toNat ≤ 122 := toNat_between hrange
    obtain rfl : c.toNat - 97 + 26 = n := Option.some.inj h
    refine ⟨by omega, ?_⟩
    rw [symbol, if_neg (by omega), if_pos (by omega)]
    exact hc (97 + (c.toNat - 97 + 26 - 26)) (by omega)
  split at h
  · rename_i hrange
    obtain ⟨hlo, hhi⟩ : 48 ≤ c.toNat ∧ c.toNat ≤ 57 := toNat_between hrange
    obtain rfl : c.toNat - 48 + 52 = n := Option.some.inj h
    refine ⟨by omega, ?_⟩
    rw [symbol, if_neg (by omega), if_neg (by omega), if_pos (by omega)]
    exact hc (48 + (c.toNat - 48 + 52 - 52)) (by omega)
  split at h
  · rename_i hplus
    obtain rfl : 62 = n := Option.some.inj h
    exact ⟨by omega, hplus.symm⟩
  split at h
  · rename_i hslash
    obtain rfl : 63 = n := Option.some.inj h
    exact ⟨by omega, hslash.symm⟩
  · cases h

theorem encode_of_decodeFrom {acc bytes : List UInt8} {cs : List Char}
    (h : decodeFrom acc cs = some bytes) :
    ∃ tail, bytes = acc.reverse ++ tail ∧ cs = encode tail := by
  have hsize : UInt8.size = 256 := rfl
  induction acc, cs using decodeFrom.induct with
  | case1 acc =>
    obtain rfl := Option.some.inj h
    exact ⟨[], by simp, rfl⟩
  | case2 acc a b =>
    rw [decodeFrom] at h
    simp only [Option.bind_eq_bind, Option.bind_eq_some_iff, Option.ite_none_right_eq_some,
      Option.some.injEq] at h
    obtain ⟨x, hx, y, hy, hpad, rfl⟩ := h
    obtain ⟨hx, rfl⟩ := symbol_of_value? hx
    obtain ⟨hy, rfl⟩ := symbol_of_value? hy
    refine ⟨[UInt8.ofNat (x * 4 + y / 16)], by simp, ?_⟩
    have hx' : (x * 4 + y / 16) / 4 = x := by omega
    have hy' : (x * 4 + y / 16) % 4 * 16 = y := by omega
    rw [encode, UInt8.toNat_ofNat_of_lt' (by omega), hx', hy']
  | case3 acc a b c hc =>
    rw [decodeFrom] at h
    · simp only [Option.bind_eq_bind, Option.bind_eq_some_iff, Option.ite_none_right_eq_some,
        Option.some.injEq] at h
      obtain ⟨x, hx, y, hy, z, hz, hpad, rfl⟩ := h
      obtain ⟨hx, rfl⟩ := symbol_of_value? hx
      obtain ⟨hy, rfl⟩ := symbol_of_value? hy
      obtain ⟨hz, rfl⟩ := symbol_of_value? hz
      refine ⟨[UInt8.ofNat (x * 4 + y / 16), UInt8.ofNat (y % 16 * 16 + z / 4)], by simp, ?_⟩
      have hx' : (x * 4 + y / 16) / 4 = x := by omega
      have hy' : (x * 4 + y / 16) % 4 * 16 + (y % 16 * 16 + z / 4) / 16 = y := by omega
      have hz' : (y % 16 * 16 + z / 4) % 16 * 4 = z := by omega
      rw [encode, UInt8.toNat_ofNat_of_lt' (by omega), UInt8.toNat_ofNat_of_lt' (by omega), hx',
        hy', hz']
    · exact hc
  | case4 acc a b c d rest hc hd ih =>
    rw [decodeFrom] at h
    · simp only [Option.bind_eq_bind, Option.bind_eq_some_iff] at h
      obtain ⟨x, hx, y, hy, z, hz, w, hw, h⟩ := h
      obtain ⟨tail, rfl, rfl⟩ := ih x y z w h
      obtain ⟨hx, rfl⟩ := symbol_of_value? hx
      obtain ⟨hy, rfl⟩ := symbol_of_value? hy
      obtain ⟨hz, rfl⟩ := symbol_of_value? hz
      obtain ⟨hw, rfl⟩ := symbol_of_value? hw
      refine ⟨UInt8.ofNat (x * 4 + y / 16) :: UInt8.ofNat (y % 16 * 16 + z / 4) ::
        UInt8.ofNat (z % 4 * 64 + w) :: tail, by simp, ?_⟩
      have hx' : (x * 4 + y / 16) / 4 = x := by omega
      have hy' : (x * 4 + y / 16) % 4 * 16 + (y % 16 * 16 + z / 4) / 16 = y := by omega
      have hz' : (y % 16 * 16 + z / 4) % 16 * 4 + (z % 4 * 64 + w) / 64 = z := by omega
      have hw' : (z % 4 * 64 + w) % 64 = w := by omega
      rw [encode, UInt8.toNat_ofNat_of_lt' (by omega), UInt8.toNat_ofNat_of_lt' (by omega),
        UInt8.toNat_ofNat_of_lt' (by omega), hx', hy', hz', hw']
    · exact hc
    · exact hd
  | case5 cs acc h₁ h₂ h₃ h₄ =>
    rw [decodeFrom] at h
    · cases h
    · exact h₁
    · exact h₂
    · exact h₃
    · exact h₄

theorem decodeText?_eq_some_iff {s : String} {bytes : List UInt8} :
    decodeText? s = some bytes ↔ s = encodeText bytes := by
  constructor
  · intro h
    obtain ⟨tail, hbytes, hs⟩ := encode_of_decodeFrom h
    obtain rfl : bytes = tail := hbytes
    rw [encodeText, ← hs, String.ofList_toList]
  · rintro rfl
    exact decodeText?_encodeText bytes

end PoolLedger.Base64
