import PoolLedger.Apr
import PoolLedger.Candle

/-! Keys begin with a number and a dash. The number can be read off the key, so
a key tells the height or the time of what it names, and the rest of it. The parts
of a longer key can be read off where names have no dashes. -/

namespace PoolLedger

namespace Keys

theorem dash_notMem_toDigits (n : Nat) : '-' ∉ Nat.toDigits 10 n := by
  intro h
  have hd := Nat.isDigit_of_mem_toDigits (by decide) (by decide) h
  exact absurd hd (by decide)

theorem toDigits_inj {m n : Nat} (h : Nat.toDigits 10 m = Nat.toDigits 10 n) : m = n := by
  have hv := congrArg (fun cs => Nat.ofDigitChars 10 cs 0) h
  simpa using hv

theorem before_dash_inj {xs ys us vs : List Char} (hx : '-' ∉ xs) (hy : '-' ∉ ys)
    (h : xs ++ '-' :: us = ys ++ '-' :: vs) : xs = ys ∧ us = vs := by
  induction xs generalizing ys with
  | nil =>
    cases ys with
    | nil => exact ⟨rfl, (List.cons.inj h).2⟩
    | cons y ys => exact absurd ((List.cons.inj h).1 ▸ List.mem_cons_self) hy
  | cons x xs ih =>
    cases ys with
    | nil => exact absurd ((List.cons.inj h).1 ▸ List.mem_cons_self) hx
    | cons y ys =>
      obtain ⟨hxy, ht⟩ := List.cons.inj h
      obtain ⟨hxs, hus⟩ := ih (fun hm => hx (List.mem_cons_of_mem x hm))
        (fun hm => hy (List.mem_cons_of_mem y hm)) ht
      exact ⟨by rw [hxy, hxs], hus⟩

theorem after_dash_inj {xs ys us vs : List Char} (hu : '-' ∉ us) (hv : '-' ∉ vs)
    (h : xs ++ '-' :: us = ys ++ '-' :: vs) : xs = ys ∧ us = vs := by
  have hrev := congrArg List.reverse h
  simp only [List.reverse_append, List.reverse_cons, List.append_assoc, List.singleton_append]
    at hrev
  obtain ⟨hus, hxs⟩ := before_dash_inj (by simpa using hu) (by simpa using hv) hrev
  exact ⟨List.reverse_inj.1 hxs, List.reverse_inj.1 hus⟩

theorem digits_dash_inj {m n : Nat} {xs ys : List Char}
    (h : Nat.toDigits 10 m ++ '-' :: xs = Nat.toDigits 10 n ++ '-' :: ys) : m = n ∧ xs = ys := by
  obtain ⟨hd, hx⟩ := before_dash_inj (dash_notMem_toDigits m) (dash_notMem_toDigits n) h
  exact ⟨toDigits_inj hd, hx⟩

theorem toList_ofNat (n : Nat) : (toString (Int.ofNat n)).toList = Nat.toDigits 10 n :=
  Nat.toList_repr

theorem toList_negSucc (n : Nat) :
    (toString (Int.negSucc n)).toList = '-' :: Nat.toDigits 10 (n + 1) := by
  change ("-" ++ Nat.repr (n + 1)).toList = _
  simp

theorem toDigits_ne_dash {n : Nat} {xs ys : List Char} : Nat.toDigits 10 n ++ xs ≠ '-' :: ys := by
  intro h
  cases hd : Nat.toDigits 10 n with
  | nil =>
    have hl := Nat.length_toDigits_pos (b := 10) (n := n)
    simp [hd] at hl
  | cons c cs =>
    rw [hd, List.cons_append] at h
    have hc : '-' ∈ Nat.toDigits 10 n := by simp [hd, (List.cons.inj h).1]
    exact dash_notMem_toDigits n hc

theorem int_dash_inj {m n : Int} {xs ys : List Char}
    (h : (toString m).toList ++ '-' :: xs = (toString n).toList ++ '-' :: ys) :
    m = n ∧ xs = ys := by
  cases m with
  | ofNat m =>
    rw [toList_ofNat] at h
    cases n with
    | ofNat n =>
      rw [toList_ofNat] at h
      obtain ⟨hm, hx⟩ := digits_dash_inj h
      exact ⟨by rw [hm], hx⟩
    | negSucc n =>
      rw [toList_negSucc, List.cons_append] at h
      exact absurd h toDigits_ne_dash
  | negSucc m =>
    rw [toList_negSucc, List.cons_append] at h
    cases n with
    | ofNat n =>
      rw [toList_ofNat] at h
      exact absurd h.symm toDigits_ne_dash
    | negSucc n =>
      rw [toList_negSucc, List.cons_append] at h
      obtain ⟨hm, hx⟩ := digits_dash_inj (List.cons.inj h).2
      exact ⟨by rw [Nat.succ_inj.1 hm], hx⟩

theorem ranged_dash_inj {lo hi : Int} {a b : Ranged lo hi} {x y : String}
    (h : toString a ++ "-" ++ x = toString b ++ "-" ++ y) : a = b ∧ x = y := by
  have hl := congrArg String.toList h
  simp only [String.toList_append] at hl
  rw [List.append_assoc, List.append_assoc] at hl
  obtain ⟨hv, hx⟩ := int_dash_inj hl
  exact ⟨Ranged.ext hv, String.toList_inj.1 hx⟩

theorem ranged_inj {lo hi : Int} {a b : Ranged lo hi} (h : toString a = toString b) : a = b := by
  have hdash : toString a ++ "-" ++ "" = toString b ++ "-" ++ "" := by rw [h]
  exact (ranged_dash_inj hdash).1

end Keys

theorem timeKey_inj {t u : Timestamp} {a b : String} : timeKey t a = timeKey u b ↔ t = u ∧ a = b :=
  ⟨Keys.ranged_dash_inj, fun ⟨ht, ha⟩ => by rw [ht, ha]⟩

theorem heightKey_inj {g h : Height} {a b : String} :
    heightKey g a = heightKey h b ↔ g = h ∧ a = b :=
  ⟨Keys.ranged_dash_inj, fun ⟨hh, ha⟩ => by rw [hh, ha]⟩

theorem heightKey_ne_of_lt {g h : Height} {a b : String} (hlt : g < h) :
    heightKey g a ≠ heightKey h b := by
  intro he
  rw [(heightKey_inj.1 he).1, Ranged.lt_def] at hlt
  omega

theorem eventKey_eq_heightKey (h : Height) (d₁ : String) (a₁ : Amount) (d₂ : String) (a₂ : Amount) :
    eventKey h d₁ a₁ d₂ a₂ =
      heightKey h (d₁ ++ "-" ++ toString a₁ ++ "-" ++ d₂ ++ "-" ++ toString a₂) := by
  simp only [eventKey, heightKey, String.append_assoc]

theorem Amount.toList_toString (a : Amount) : (toString a).toList = Nat.toDigits 10 a.toNat := by
  obtain ⟨n, hn⟩ := Int.eq_ofNat_of_zero_le a.lo_le
  change (toString a.val).toList = Nat.toDigits 10 a.val.toNat
  rw [hn]
  exact Keys.toList_ofNat n

theorem Amount.isDigit_of_mem_toString {a : Amount} {c : Char} (h : c ∈ (toString a).toList) :
    c.isDigit = true := by
  rw [toList_toString] at h
  exact Nat.isDigit_of_mem_toDigits (by decide) (by decide) h

/-- An event can be read off its key if its first denom has no dash. The second one ends at the
last dash whatever it holds. -/
theorem eventKey_eq_iff {g h : Height} {c c' d d' : String} {a a' b b' : Amount}
    (hc : '-' ∉ c.toList) (hc' : '-' ∉ c'.toList) :
    eventKey g c a d b = eventKey h c' a' d' b' ↔
      g = h ∧ c = c' ∧ a = a' ∧ d = d' ∧ b = b' := by
  have hdash (x : Amount) : '-' ∉ (toString x).toList := fun h =>
    absurd (Amount.isDigit_of_mem_toString h) (by decide)
  constructor
  · intro heq
    rw [eventKey_eq_heightKey, eventKey_eq_heightKey] at heq
    obtain ⟨hg, hrest⟩ := heightKey_inj.1 heq
    have hl := congrArg String.toList hrest
    simp only [String.toList_append, List.append_assoc] at hl
    obtain ⟨hcs, hl⟩ := Keys.before_dash_inj hc hc' hl
    obtain ⟨ha, hl⟩ := Keys.int_dash_inj hl
    obtain ⟨hds, hbs⟩ := Keys.after_dash_inj (hdash b) (hdash b') hl
    exact ⟨hg, String.toList_inj.1 hcs, Ranged.ext ha, String.toList_inj.1 hds,
      Keys.ranged_inj (String.toList_inj.1 hbs)⟩
  · rintro ⟨rfl, rfl, rfl, rfl, rfl⟩
    rfl

-- a dash in one first denom is enough for two events of one key
example : eventKey 7 "a-1-b" 2 "c" 3 = eventKey 7 "a" 1 "b-2-c" 3 := by decide +kernel

theorem Pair.key_eq_iff {p q : Pair} (hp : '-' ∉ p.base.denom.toList)
    (hq : '-' ∉ q.base.denom.toList) :
    p.key = q.key ↔ p.base.denom = q.base.denom ∧ p.quote.denom = q.quote.denom := by
  constructor
  · intro heq
    have hl := congrArg String.toList heq
    simp only [key, String.toList_append, List.append_assoc] at hl
    obtain ⟨hbase, hquote⟩ := Keys.before_dash_inj hp hq hl
    exact ⟨String.toList_inj.1 hbase, String.toList_inj.1 hquote⟩
  · rintro ⟨hbase, hquote⟩
    rw [key, key, hbase, hquote]

end PoolLedger
