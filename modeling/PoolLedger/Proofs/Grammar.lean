import PoolLedger.Proofs.Assets
import PoolLedger.Proofs.Ascending
import PoolLedger.Proofs.Base64
import PoolLedger.Proofs.Messages
import PoolLedger.Proofs.Wire

/-! The grammar of execution messages. A message is an object with one member,
named for what it does; its content is any object, or a record of some fields,
written as an object or as the list of the fields. The tokens that a `send`
carries come with a second message in base64, read one level deep. Reading
follows this grammar exactly, and what follows none of it means nothing here. -/

namespace PoolLedger

namespace Json

def Sorted (members : List (String × Json)) : Prop :=
  members.Pairwise fun a b => a.1 < b.1

variable {members : List (String × Json)} {m : String × Json} {j : Json}

theorem mem_of_mem_insertMember {k : String} {v : Json} (h : m ∈ insertMember k v members) :
    m = (k, v) ∨ m ∈ members := by
  induction members with
  | nil => exact Or.inl (List.mem_singleton.1 h)
  | cons n rest ih =>
    unfold insertMember at h
    split at h
    · rcases List.mem_cons.1 h with rfl | h
      · exact Or.inl rfl
      · exact Or.inr (List.mem_cons_of_mem n h)
    split at h
    · exact List.mem_cons.1 h
    · rcases List.mem_cons.1 h with rfl | h
      · exact Or.inr List.mem_cons_self
      · exact (ih h).imp_right (List.mem_cons_of_mem n)

theorem sorted_insertMember (k : String) (v : Json) (h : Sorted members) :
    Sorted (insertMember k v members) := by
  induction members with
  | nil => exact List.pairwise_singleton _ _
  | cons n rest ih =>
    obtain ⟨hn, hrest⟩ := List.pairwise_cons.1 h
    unfold insertMember
    split
    · rename_i hk
      exact List.pairwise_cons.2 ⟨fun m hm => hk ▸ hn m hm, hrest⟩
    rename_i hne
    split
    · rename_i hk
      refine List.pairwise_cons.2 ⟨fun m hm => ?_, h⟩
      rcases List.mem_cons.1 hm with rfl | hm
      · exact hk
      · exact String.lt_trans hk (hn m hm)
    · rename_i hk
      refine List.pairwise_cons.2 ⟨fun m hm => ?_, ih hrest⟩
      rcases mem_of_mem_insertMember hm with rfl | hm
      · exact String.lt_of_ne hne hk
      · exact hn m hm

theorem sorted_sortMembers (members : List (String × Json)) : Sorted (sortMembers members) :=
  List.foldlRecOn members _ List.Pairwise.nil fun _ h m _ => sorted_insertMember m.1 m.2 h

theorem mem_of_mem_sortMembers (h : m ∈ sortMembers members) : m ∈ members := by
  have hall : ∀ n ∈ sortMembers members, n ∈ members := by
    refine List.foldlRecOn (motive := fun acc => ∀ n ∈ acc, n ∈ members) members _ (by simp) ?_
    intro acc hacc new hnew n hn
    rcases mem_of_mem_insertMember hn with rfl | hn
    · exact hnew
    · exact hacc n hn
  exact hall m h

theorem Sorted.single? (h : Sorted members) (k : String) :
    single? members k = some (member? k (.object members)) := by
  have hmember : member? k (.object members) =
      ((members.filter fun m => m.1 = k).getLast?).map Prod.snd := by
    rw [member?, ← List.head?_filter, List.filter_reverse, List.head?_reverse]
  have hsorted : Sorted (members.filter fun m => m.1 = k) := h.filter _
  have hkey : ∀ m ∈ members.filter fun m => m.1 = k, m.1 = k := by simp
  rw [hmember, Json.single?]
  generalize members.filter (fun m => m.1 = k) = found at hsorted hkey
  match found with
  | [] => rfl
  | [_] => rfl
  | a :: b :: rest =>
    have hlt := List.rel_of_pairwise_cons hsorted List.mem_cons_self
    rw [hkey a (by simp), hkey b (by simp)] at hlt
    exact absurd hlt (String.lt_irrefl k)

def IsValue (j : Json) : Prop := ∃ tree : Json, j = tree.canonical

theorem IsValue.sorted (h : IsValue (.object members)) : Sorted members := by
  obtain ⟨tree, h⟩ := h
  cases tree with
  | object trees =>
    rw [canonical, object.injEq] at h
    rw [h]
    exact sorted_sortMembers _
  | _ => simp [canonical] at h

theorem isValue_of_mem_canonicalMembers (h : m ∈ canonicalMembers members) : IsValue m.2 := by
  induction members with
  | nil => cases h
  | cons n rest ih =>
    obtain ⟨k, x⟩ := n
    rw [canonicalMembers] at h
    rcases List.mem_cons.1 h with rfl | h
    · exact ⟨x, rfl⟩
    · exact ih h

theorem IsValue.member (h : IsValue (.object members)) (hm : m ∈ members) : IsValue m.2 := by
  obtain ⟨tree, h⟩ := h
  cases tree with
  | object trees =>
    rw [canonical, object.injEq] at h
    rw [h] at hm
    exact isValue_of_mem_canonicalMembers (mem_of_mem_sortMembers hm)
  | _ => simp [canonical] at h

theorem isValue_of_parseBytes? {bytes : List UInt8} (h : parseBytes? bytes = some j) :
    IsValue j := by
  obtain ⟨tree, -, hvalue⟩ := Option.bind_eq_some_iff.1 h
  rw [value?, valueAt?, Option.ite_none_right_eq_some] at hvalue
  exact ⟨tree, (Option.some.inj hvalue.2).symm⟩

/-- The fields of a record: the members of an object under their keys, or the items
of a list in their order, the last ones perhaps left out. -/
inductive HasFields (names : List String) : Json → List (Option Json) → Prop
  | named (members : List (String × Json)) :
    HasFields names (.object members) (names.map fun k => member? k (.object members))
  | listed (items : List Json) (h : items.length ≤ names.length) :
    HasFields names (.list items)
      (items.map some ++ List.replicate (names.length - items.length) none)

theorem fields?_eq_some {names : List String} {values : List (Option Json)} (hj : IsValue j) :
    (∃ f, j.fields? names = some f ∧ f.values = values) ↔ HasFields names j values := by
  constructor
  · rintro ⟨f, hf, rfl⟩
    cases j with
    | object members =>
      have hsingle : names.map (single? members) =
          (names.map fun k => member? k (.object members)).map some := by
        rw [List.map_map]
        exact List.map_congr_left fun k _ => hj.sorted.single? k
      rw [fields?_object hsingle] at hf
      obtain rfl := Option.some.inj hf
      exact .named members
    | list items =>
      rw [fields?, Option.ite_none_right_eq_some] at hf
      obtain ⟨hle, hf⟩ := hf
      obtain rfl := Option.some.inj hf
      exact .listed items hle
    | _ => cases hf
  · rintro (members | ⟨items, hle⟩)
    · refine ⟨_, fields?_object ?_, rfl⟩
      rw [List.map_map]
      exact List.map_congr_left fun k _ => hj.sorted.single? k
    · rw [fields?, if_pos hle]
      exact ⟨_, rfl, rfl⟩

theorem HasFields.length_eq {names : List String} {values : List (Option Json)}
    (h : HasFields names j values) : values.length = names.length := by
  cases h with
  | named => exact List.length_map _
  | listed items hle =>
    rw [List.length_append, List.length_map, List.length_replicate]
    omega

def IsAmount (j : Json) (a : Amount) : Prop :=
  ∃ s n, j = .text s ∧ Text.IsNumeral s n ∧ (n : Int) = a.val

theorem amount?_eq_some_iff {a : Amount} : j.amount? = some a ↔ IsAmount j a := by
  rw [amount?, Option.bind_eq_some_iff]
  constructor
  · rintro ⟨s, hs, ha⟩
    cases j with
    | text t =>
      obtain rfl : t = s := Option.some.inj hs
      obtain ⟨n, hn⟩ := Amount.read?_eq_some_iff.1 ha
      exact ⟨t, n, rfl, hn⟩
    | _ => cases hs
  · rintro ⟨s, n, rfl, hn⟩
    exact ⟨s, rfl, Amount.read?_eq_some_iff.2 ⟨n, hn⟩⟩

theorem text?_eq_some_iff {s : String} : j.text? = some s ↔ j = .text s := by
  cases j <;> simp [text?]

inductive IsOptionalText : Option Json → Option String → Prop
  | absent : IsOptionalText none none
  | null : IsOptionalText (some .null) none
  | text (s : String) : IsOptionalText (some (.text s)) (some s)

theorem required_eq_some_iff {α : Type} {f : Fields} {i : Nat} {read : Json → Option α} {x : α} :
    f.required i read = some x ↔ ∃ v, f.at i = some v ∧ read v = some x :=
  Option.bind_eq_some_iff

theorem default_eq_some_iff {f : Fields} {i : Nat} {encoded : Option String} :
    f.default i (nullable text?) none = some encoded ↔ IsOptionalText (f.at i) encoded := by
  unfold Fields.default
  generalize f.at i = value
  constructor
  · intro h
    match value, h with
    | none, h =>
      obtain rfl := Option.some.inj h
      exact .absent
    | some .null, h =>
      obtain rfl := Option.some.inj h
      exact .null
    | some (.text s), h =>
      obtain rfl := Option.some.inj h
      exact .text s
  · rintro ⟨⟩ <;> rfl

end Json

namespace Message

open Json (IsValue HasFields IsAmount IsOptionalText)

def Bare (name : String) (j : Json) : Prop := ∃ members, j = .object [(name, .object members)]

def Swapping (j : Json) : Prop := Bare "execute_swap_operations" j ∨ Bare "swap" j

def Sending (j : Json) (a : Amount) (encoded : Option String) : Prop :=
  ∃ content amount msg, j = .object [("send", content)] ∧
    HasFields ["amount", "msg"] content [some amount, msg] ∧ IsAmount amount a ∧
    IsOptionalText msg encoded

def Unbonding (j : Json) (token : String) (a : Amount) : Prop :=
  ∃ content amount, j = .object [("unbond", content)] ∧
    HasFields ["staking_token", "amount"] content [some (.text token), some amount] ∧
    IsAmount amount a

def Updating (j : Json) (token : String) : Prop :=
  ∃ content, j = .object [("update_rewards_per_sec", content)] ∧
    HasFields ["staking_token"] content [some (.text token)]

def Carries (encoded : String) (hook : Json) : Prop :=
  ∃ bytes, encoded = Base64.encodeText bytes ∧ Json.parseBytes? bytes = some hook

def Hooking (j : Json) (a : Amount) (hook : Json) : Prop :=
  ∃ encoded, Sending j a (some encoded) ∧ Carries encoded hook

/-- Tokens are sent with a text that is no value. -/
def Broken (j : Json) : Prop :=
  ∃ a encoded, Sending j a (some encoded) ∧ ∀ hook, ¬ Carries encoded hook

/-- What a value means to a contract. -/
inductive Means (contract : String) (j : Json) : Message → Prop
  | swap (h : Swapping j) : Means contract j .swap
  | provideLiquidity (h : Bare "provide_liquidity" j) : Means contract j .provideLiquidity
  | hookedSwap {a : Amount} {hook : Json} (sent : Hooking j a hook) (h : Swapping hook) :
    Means contract j .swap
  | withdrawLiquidity {a : Amount} {hook : Json} (sent : Hooking j a hook)
    (h : Bare "withdraw_liquidity" hook) : Means contract j (.withdrawLiquidity contract a)
  | bond {a : Amount} {hook : Json} (sent : Hooking j a hook) (h : Bare "bond" hook) :
    Means contract j (.bond contract a)
  | unbond {token : String} {a : Amount} (h : Unbonding j token a) :
    Means contract j (.unbond token a)
  | updateRewards {token : String} (h : Updating j token) : Means contract j (.updateRewards token)

variable {j hook : Json} {a : Amount} {contract encoded name token : String}

theorem variant?_eq_some_iff {m : String × Json} : j.variant? = some m ↔ j = .object [m] := by
  constructor
  · intro h
    match j, h with
    | .object [_], h => rw [Option.some.inj h]
  · rintro rfl
    rfl

theorem isBare_iff : isBare j name = true ↔ Bare name j := by
  unfold isBare Bare
  constructor
  · intro h
    split at h
    · rename_i k content hj
      rw [Bool.and_eq_true, decide_eq_true_eq] at h
      obtain ⟨rfl, hcontent⟩ := h
      match content, hcontent with
      | .object members, _ => exact ⟨members, variant?_eq_some_iff.1 hj⟩
    · cases h
  · rintro ⟨members, rfl⟩
    simp [Json.variant?, Json.isObject]

theorem isSwap_iff : isSwap j = true ↔ Swapping j := by
  rw [isSwap, Bool.or_eq_true, isBare_iff, isBare_iff]
  rfl

theorem record?_eq_some {fields : List String} {values : List (Option Json)} (hj : IsValue j) :
    (∃ f, record? j name fields = some f ∧ f.values = values) ↔
      ∃ content, j = .object [(name, content)] ∧ HasFields fields content values := by
  unfold record?
  constructor
  · rintro ⟨f, hf, hvalues⟩
    split at hf
    · rename_i k content hvariant
      obtain rfl := variant?_eq_some_iff.1 hvariant
      rw [Option.ite_none_right_eq_some] at hf
      obtain ⟨rfl, hf⟩ := hf
      have hcontent : IsValue content := hj.member List.mem_cons_self
      exact ⟨content, rfl, (Json.fields?_eq_some hcontent).1 ⟨f, hf, hvalues⟩⟩
    · cases hf
  · rintro ⟨content, rfl, hfields⟩
    have hcontent : IsValue content := hj.member List.mem_cons_self
    obtain ⟨f, hf, hvalues⟩ := (Json.fields?_eq_some hcontent).2 hfields
    exact ⟨f, by simpa [Json.variant?] using hf, hvalues⟩

theorem record?_two (hj : IsValue j) {first second : String}
    (P : Option Json → Option Json → Prop) :
    (∃ f, record? j name [first, second] = some f ∧ P (f.at 0) (f.at 1)) ↔
      ∃ content x y, j = .object [(name, content)] ∧ HasFields [first, second] content [x, y] ∧
        P x y := by
  constructor
  · rintro ⟨f, hf, hP⟩
    obtain ⟨content, hcontent, hfields⟩ := (record?_eq_some hj).1 ⟨f, hf, rfl⟩
    obtain ⟨x, y, hvalues⟩ := List.length_eq_two.1 hfields.length_eq
    rw [Json.Fields.at, Json.Fields.at, hvalues] at hP
    rw [hvalues] at hfields
    exact ⟨content, x, y, hcontent, hfields, hP⟩
  · rintro ⟨content, x, y, hcontent, hfields, hP⟩
    obtain ⟨f, hf, hvalues⟩ := (record?_eq_some hj).2 ⟨content, hcontent, hfields⟩
    rw [← hvalues] at hfields
    refine ⟨f, hf, ?_⟩
    rw [Json.Fields.at, Json.Fields.at, hvalues]
    exact hP

theorem send?_eq_some_iff (hj : IsValue j) {encoded : Option String} :
    send? j = some (a, encoded) ↔ Sending j a encoded := by
  have hread : send? j = some (a, encoded) ↔ ∃ f, record? j "send" ["amount", "msg"] = some f ∧
      (∃ v, f.at 0 = some v ∧ IsAmount v a) ∧ IsOptionalText (f.at 1) encoded := by
    simp [send?, Option.bind_eq_some_iff, Json.required_eq_some_iff, Json.default_eq_some_iff,
      Json.amount?_eq_some_iff]
  rw [hread, record?_two hj fun x y => (∃ v, x = some v ∧ IsAmount v a) ∧ IsOptionalText y encoded]
  constructor
  · rintro ⟨content, x, msg, hcontent, hfields, ⟨amount, rfl, ha⟩, hmsg⟩
    exact ⟨content, amount, msg, hcontent, hfields, ha, hmsg⟩
  · rintro ⟨content, amount, msg, hcontent, hfields, ha, hmsg⟩
    exact ⟨content, some amount, msg, hcontent, hfields, ⟨amount, rfl, ha⟩, hmsg⟩

theorem unbond?_eq_some_iff (hj : IsValue j) :
    unbond? j = some (token, a) ↔ Unbonding j token a := by
  have hread : unbond? j = some (token, a) ↔
      ∃ f, record? j "unbond" ["staking_token", "amount"] = some f ∧
        f.at 0 = some (.text token) ∧ ∃ v, f.at 1 = some v ∧ IsAmount v a := by
    simp [unbond?, Option.bind_eq_some_iff, Json.required_eq_some_iff, Json.text?_eq_some_iff,
      Json.amount?_eq_some_iff]
  rw [hread, record?_two hj fun x y => x = some (.text token) ∧ ∃ v, y = some v ∧ IsAmount v a]
  constructor
  · rintro ⟨content, x, y, hcontent, hfields, rfl, amount, rfl, ha⟩
    exact ⟨content, amount, hcontent, hfields, ha⟩
  · rintro ⟨content, amount, hcontent, hfields, ha⟩
    exact ⟨content, _, some amount, hcontent, hfields, rfl, amount, rfl, ha⟩

theorem updateRewards?_eq_some_iff (hj : IsValue j) :
    updateRewards? j = some token ↔ Updating j token := by
  have hread : updateRewards? j = some token ↔
      ∃ f, record? j "update_rewards_per_sec" ["staking_token"] = some f ∧
        f.at 0 = some (.text token) := by
    simp [updateRewards?, Option.bind_eq_some_iff, Json.required_eq_some_iff,
      Json.text?_eq_some_iff]
  rw [hread]
  constructor
  · rintro ⟨f, hf, htoken⟩
    obtain ⟨content, hcontent, hfields⟩ := (record?_eq_some hj).1 ⟨f, hf, rfl⟩
    obtain ⟨x, hvalues⟩ := List.length_eq_one_iff.1 hfields.length_eq
    rw [Json.Fields.at, hvalues] at htoken
    obtain rfl : x = some (.text token) := htoken
    exact ⟨content, hcontent, hvalues ▸ hfields⟩
  · rintro ⟨content, hcontent, hfields⟩
    obtain ⟨f, hf, hvalues⟩ := (record?_eq_some hj).2 ⟨content, hcontent, hfields⟩
    refine ⟨f, hf, ?_⟩
    rw [Json.Fields.at, hvalues]
    rfl

theorem hook?_eq_some_iff : hook? encoded = some hook ↔ Carries encoded hook := by
  rw [hook?, Option.bind_eq_some_iff]
  exact exists_congr fun bytes => and_congr Base64.decodeText?_eq_some_iff Iff.rfl

theorem Bare.name_eq {k : String} {content : Json} (h : Bare name (.object [(k, content)])) :
    k = name := by
  obtain ⟨members, h⟩ := h
  rw [Json.object.injEq] at h
  exact (Prod.mk.inj (List.cons.inj h).1).1

theorem not_isSwap {k : String} {content : Json} (h₁ : k ≠ "execute_swap_operations")
    (h₂ : k ≠ "swap") : ¬ isSwap (.object [(k, content)]) = true := by
  rw [isSwap_iff]
  rintro (h | h)
  · exact h₁ h.name_eq
  · exact h₂ h.name_eq

theorem not_isBare {k : String} {content : Json} (h : k ≠ name) :
    ¬ isBare (.object [(k, content)]) name = true := by
  rw [isBare_iff]
  exact fun hbare => h hbare.name_eq

theorem means_ofHook (sent : Hooking j a hook) (h : ofHook contract a hook ≠ .other) :
    Means contract j (ofHook contract a hook) := by
  by_cases hswap : isSwap hook
  · rw [ofHook, if_pos hswap]
    exact .hookedSwap sent (isSwap_iff.1 hswap)
  by_cases hwithdraw : isBare hook "withdraw_liquidity"
  · rw [ofHook, if_neg hswap, if_pos hwithdraw]
    exact .withdrawLiquidity sent (isBare_iff.1 hwithdraw)
  by_cases hbond : isBare hook "bond"
  · rw [ofHook, if_neg hswap, if_neg hwithdraw, if_pos hbond]
    exact .bond sent (isBare_iff.1 hbond)
  · exact absurd (by rw [ofHook, if_neg hswap, if_neg hwithdraw, if_neg hbond]) h

theorem ofHook_swap (h : Swapping hook) : ofHook contract a hook = .swap :=
  if_pos (isSwap_iff.2 h)

theorem ofHook_withdraw (h : Bare "withdraw_liquidity" hook) :
    ofHook contract a hook = .withdrawLiquidity contract a := by
  obtain ⟨members, rfl⟩ := h
  rw [ofHook, if_neg (not_isSwap (by decide) (by decide)), if_pos (isBare_iff.2 ⟨members, rfl⟩)]

theorem ofHook_bond (h : Bare "bond" hook) : ofHook contract a hook = .bond contract a := by
  obtain ⟨members, rfl⟩ := h
  rw [ofHook, if_neg (not_isSwap (by decide) (by decide)), if_neg (not_isBare (by decide)),
    if_pos (isBare_iff.2 ⟨members, rfl⟩)]

theorem ofHook_other {content : Json} (h₁ : name ≠ "execute_swap_operations") (h₂ : name ≠ "swap")
    (h₃ : name ≠ "withdraw_liquidity") (h₄ : name ≠ "bond") :
    ofHook contract a (.object [(name, content)]) = .other := by
  rw [ofHook, if_neg (not_isSwap h₁ h₂), if_neg (not_isBare h₃), if_neg (not_isBare h₄)]

def ofRecord? (contract : String) (j : Json) : Option Message :=
  match send? j with
  | some (_, none) => some .other
  | some (amount, some encoded) => (hook? encoded).map (ofHook contract amount)
  | none =>
    match unbond? j with
    | some (token, amount) => some (.unbond token amount)
    | none =>
      match updateRewards? j with
      | some token => some (.updateRewards token)
      | none => some .other

theorem ofValue?_eq_ofRecord? (h₁ : ¬ isSwap j = true)
    (h₂ : ¬ isBare j "provide_liquidity" = true) : ofValue? contract j = ofRecord? contract j := by
  rw [ofValue?, if_neg h₁, if_neg h₂]
  rfl

theorem ofValue?_named {content : Json} (h₁ : name ≠ "execute_swap_operations")
    (h₂ : name ≠ "swap") (h₃ : name ≠ "provide_liquidity") :
    ofValue? contract (.object [(name, content)]) = ofRecord? contract (.object [(name, content)]) :=
  ofValue?_eq_ofRecord? (not_isSwap h₁ h₂) (not_isBare h₃)

theorem ofValue?_sending (hj : IsValue j) (h : Sending j a (some encoded)) :
    ofValue? contract j = (hook? encoded).map (ofHook contract a) := by
  have hsend := (send?_eq_some_iff hj).2 h
  obtain ⟨content, -, -, rfl, -⟩ := h
  rw [ofValue?_named (by decide) (by decide) (by decide), ofRecord?, hsend]

theorem send?_eq_none {content : Json} (h : name ≠ "send") :
    send? (.object [(name, content)]) = none := by
  simp [send?, record?, Json.variant?, h]

theorem ofValue?_unbonding (hj : IsValue j) (h : Unbonding j token a) :
    ofValue? contract j = some (.unbond token a) := by
  have hunbond := (unbond?_eq_some_iff hj).2 h
  obtain ⟨content, -, rfl, -⟩ := h
  rw [ofValue?_named (by decide) (by decide) (by decide), ofRecord?, send?_eq_none (by decide),
    hunbond]

theorem ofValue?_updating (hj : IsValue j) (h : Updating j token) :
    ofValue? contract j = some (.updateRewards token) := by
  have hupdate := (updateRewards?_eq_some_iff hj).2 h
  obtain ⟨content, rfl, -⟩ := h
  have hunbond : unbond? (.object [("update_rewards_per_sec", content)]) = none := by
    simp [unbond?, record?, Json.variant?]
  rw [ofValue?_named (by decide) (by decide) (by decide), ofRecord?, send?_eq_none (by decide),
    hunbond, hupdate]

theorem ofValue?_hooking (hj : IsValue j) (h : Hooking j a hook) :
    ofValue? contract j = some (ofHook contract a hook) := by
  obtain ⟨encoded, hsending, hcarries⟩ := h
  rw [ofValue?_sending hj hsending, hook?_eq_some_iff.2 hcarries, Option.map_some]

theorem ofValue?_of_means (hj : IsValue j) {m : Message} (h : Means contract j m) :
    ofValue? contract j = some m := by
  cases h with
  | swap h => rw [ofValue?, if_pos (isSwap_iff.2 h)]
  | provideLiquidity h =>
    obtain ⟨members, rfl⟩ := h
    rw [ofValue?, if_neg (not_isSwap (by decide) (by decide)), if_pos (isBare_iff.2 ⟨members, rfl⟩)]
  | hookedSwap sent h => rw [ofValue?_hooking hj sent, ofHook_swap h]
  | withdrawLiquidity sent h => rw [ofValue?_hooking hj sent, ofHook_withdraw h]
  | bond sent h => rw [ofValue?_hooking hj sent, ofHook_bond h]
  | unbond h => exact ofValue?_unbonding hj h
  | updateRewards h => exact ofValue?_updating hj h

theorem ofValue?_of_broken (hj : IsValue j) (h : Broken j) : ofValue? contract j = none := by
  obtain ⟨a, encoded, hsending, hnone⟩ := h
  have hhook : hook? encoded = none := by
    rw [Option.eq_none_iff_forall_ne_some]
    exact fun hook hread => hnone hook (hook?_eq_some_iff.1 hread)
  rw [ofValue?_sending hj hsending, hhook, Option.map_none]

theorem ofValue?_cases (contract : String) (hj : IsValue j) :
    (ofValue? contract j = none ∧ Broken j) ∨ ofValue? contract j = some .other ∨
      ∃ m, ofValue? contract j = some m ∧ Means contract j m := by
  by_cases hswap : isSwap j
  · refine .inr (.inr ⟨.swap, ?_, .swap (isSwap_iff.1 hswap)⟩)
    rw [ofValue?, if_pos hswap]
  by_cases hprovide : isBare j "provide_liquidity"
  · refine .inr (.inr ⟨.provideLiquidity, ?_, .provideLiquidity (isBare_iff.1 hprovide)⟩)
    rw [ofValue?, if_neg hswap, if_pos hprovide]
  rw [ofValue?_eq_ofRecord? hswap hprovide, ofRecord?]
  split
  · exact .inr (.inl rfl)
  · rename_i a encoded hsend
    have hsending := (send?_eq_some_iff hj).1 hsend
    cases hhook : hook? encoded with
    | none =>
      refine .inl ⟨rfl, a, encoded, hsending, fun hook hcarries => ?_⟩
      rw [hook?_eq_some_iff.2 hcarries] at hhook
      cases hhook
    | some hook =>
      have hhooking : Hooking j a hook := ⟨encoded, hsending, hook?_eq_some_iff.1 hhook⟩
      by_cases hother : ofHook contract a hook = .other
      · exact .inr (.inl (congrArg some hother))
      · exact .inr (.inr ⟨_, rfl, means_ofHook hhooking hother⟩)
  · split
    · rename_i token a hunbond
      exact .inr (.inr ⟨_, rfl, .unbond ((unbond?_eq_some_iff hj).1 hunbond)⟩)
    · split
      · rename_i token hupdate
        exact .inr (.inr ⟨_, rfl, .updateRewards ((updateRewards?_eq_some_iff hj).1 hupdate)⟩)
      · exact .inr (.inl rfl)

theorem ofValue?_eq_none_iff (hj : IsValue j) : ofValue? contract j = none ↔ Broken j := by
  refine ⟨fun h => ?_, ofValue?_of_broken hj⟩
  rcases ofValue?_cases contract hj with ⟨-, hbroken⟩ | hother | ⟨m, hm, -⟩
  · exact hbroken
  · cases h.symm.trans hother
  · cases h.symm.trans hm

theorem ofValue?_eq_some_iff (hj : IsValue j) {m : Message} (hm : m ≠ .other) :
    ofValue? contract j = some m ↔ Means contract j m := by
  refine ⟨fun h => ?_, ofValue?_of_means hj⟩
  rcases ofValue?_cases contract hj with ⟨hnone, -⟩ | hother | ⟨m', hm', hmeans⟩
  · cases h.symm.trans hnone
  · exact absurd (Option.some.inj (h.symm.trans hother)) hm
  · rwa [Option.some.inj (h.symm.trans hm')]

theorem ofValue?_eq_other_iff (hj : IsValue j) : ofValue? contract j = some .other ↔
    ¬ Broken j ∧ ∀ m, ¬ Means contract j m := by
  constructor
  · intro h
    refine ⟨fun hbroken => ?_, fun m hmeans => ?_⟩
    · cases h.symm.trans (ofValue?_of_broken hj hbroken)
    · obtain rfl := Option.some.inj (h.symm.trans (ofValue?_of_means hj hmeans))
      cases hmeans
  · rintro ⟨hbroken, hmeans⟩
    rcases ofValue?_cases contract hj with ⟨-, h⟩ | hother | ⟨m, -, h⟩
    · exact absurd h hbroken
    · exact hother
    · exact absurd h (hmeans m)

end Message

namespace Extraction

variable {r : Registry} {tx : Transaction} {msg n : Nat} {e : Execution}
  {entry : Option LogEntry} {x : Extraction}

theorem not_mem_skipped_concat {α : Type} {R : α → Extraction → Prop} {xs : List α}
    {parts : List Extraction} {s : Skip} (h : List.Forall₂ R xs parts)
    (hR : ∀ a x, R a x → s ∉ x.skipped) : s ∉ (concat parts).skipped := by
  induction h with
  | nil => simp [concat]
  | cons hx _ ih =>
    intro hs
    rcases List.mem_append.1 hs with hs | hs
    · exact hR _ _ hx hs
    · exact ih hs

theorem mem_skipped_skip {s s' : Skip} : s ∈ (skip s').skipped ↔ s = s' := List.mem_singleton

theorem Hopped.not_unparseable {sender : String} {hop : SwapHop}
    (h : Hopped r tx sender msg hop x) : .unparseableMessage n ∉ x.skipped := by
  cases h with
  | swap => exact List.not_mem_nil
  | unmatched => simp [mem_skipped_skip]

theorem Grouped.not_unparseable {creator : String} {op : LiquidityOp} {sent : Option Amount}
    {g : LiquidityGroup} (h : Grouped r tx creator msg op sent g x) :
    .unparseableMessage n ∉ x.skipped := by
  cases h with
  | change => exact List.not_mem_nil
  | unmatched => simp [mem_skipped_skip]

theorem Comes.unparseable_iff (h : Comes r tx msg e entry x) :
    .unparseableMessage n ∈ x.skipped ↔ n = msg ∧ Message.ofExecution? e = none := by
  cases h with
  | unparseable meaning => simp [mem_skipped_skip, meaning]
  | other meaning => simp [empty, meaning]
  | staking meaning => simp [event, meaning]
  | unlogged meaning => simp [mem_skipped_skip, meaning]
  | @hopless _ f meaning => cases f <;> simp [mem_skipped_skip, HopFault.skip, meaning]
  | hops meaning _ _ each =>
    simp [meaning, not_mem_skipped_concat each fun _ _ => Hopped.not_unparseable]
  | groupless meaning => simp [mem_skipped_skip, meaning]
  | groups meaning _ _ _ each =>
    simp [meaning, not_mem_skipped_concat each fun _ _ => Grouped.not_unparseable]

end Extraction

namespace Message

theorem ofExecution?_eq_some_iff {e : Execution} {m : Message} :
    ofExecution? e = some m ↔
      ∃ j, Json.parseBytes? e.body = some j ∧ ofValue? e.contract j = some m :=
  Option.bind_eq_some_iff

/-- An execution cannot be read exactly when its body is no JSON or sends tokens with
a text that is not JSON in base64, and the report names its place. It has a meaning
exactly when the grammar gives it, with the contract, the amount and the token that
stand there, and in all other cases it means nothing here, in particular when the
message sent along is one that counts only outside. -/
theorem reading_follows_grammar (e : Execution) :
    (ofExecution? e = none ↔
        Json.parseBytes? e.body = none ∨ ∃ j, Json.parseBytes? e.body = some j ∧ Broken j) ∧
      (∀ m, m ≠ .other → (ofExecution? e = some m ↔
        ∃ j, Json.parseBytes? e.body = some j ∧ Means e.contract j m)) ∧
      (ofExecution? e = some .other ↔
        ∃ j, Json.parseBytes? e.body = some j ∧ ¬ Broken j ∧ ∀ m, ¬ Means e.contract j m) ∧
      (∀ j a name content, Json.parseBytes? e.body = some j →
        Hooking j a (.object [(name, content)]) →
        name ∈ ["send", "unbond", "provide_liquidity"] → ofExecution? e = some .other) ∧
      ∀ r tx entry msg k before n,
        .unparseableMessage n ∈ (Extraction.ofMessage r tx entry msg e k before).1.skipped ↔
          n = msg ∧ ofExecution? e = none := by
  refine ⟨?_, fun m hm => ?_, ?_, fun j a name content hj hhooking hname => ?_,
    fun r tx entry msg k before n =>
      (Extraction.ofMessage_comes r tx entry msg e k before).unparseable_iff⟩
  · cases hj : Json.parseBytes? e.body with
    | none => simp [ofExecution?, hj]
    | some j =>
      simp [ofExecution?, hj, ofValue?_eq_none_iff (Json.isValue_of_parseBytes? hj)]
  · rw [ofExecution?_eq_some_iff]
    exact exists_congr fun j => and_congr_right fun hj =>
      ofValue?_eq_some_iff (Json.isValue_of_parseBytes? hj) hm
  · rw [ofExecution?_eq_some_iff]
    exact exists_congr fun j => and_congr_right fun hj =>
      ofValue?_eq_other_iff (Json.isValue_of_parseBytes? hj)
  · rw [ofExecution?_eq_some_iff]
    refine ⟨j, hj, ?_⟩
    rw [ofValue?_hooking (Json.isValue_of_parseBytes? hj) hhooking]
    simp only [List.mem_cons, List.not_mem_nil, or_false] at hname
    rcases hname with rfl | rfl | rfl
    · rw [ofHook_other (by decide) (by decide) (by decide) (by decide)]
    · rw [ofHook_other (by decide) (by decide) (by decide) (by decide)]
    · rw [ofHook_other (by decide) (by decide) (by decide) (by decide)]

end Message

namespace Json

theorem parseBytes?_compact {j : Json} (h : j.plain = true) :
    parseBytes? (Wire.utf8 j.compact) = j.value? := by
  have hbytes : ofBytes? (Wire.utf8 j.compact) = some j := by
    change (Wire.text? (Wire.utf8 j.compact)).bind ofString? = some j
    rw [Wire.text?_utf8, Option.bind_some, ofString?_compact h]
  rw [parseBytes?, hbytes, Option.bind_some]

end Json

namespace Hooked

def sending (name : String) : Json :=
  .object [("send", .object [("amount", .text "500"),
    ("msg", .text (Base64.encodeText (Wire.utf8 (Json.object [(name, .object [])]).compact)))])]

def sent (name : String) : Execution := ⟨"trader", "lp", Wire.utf8 (sending name).compact, []⟩

theorem canonical_sending (name : String) : (sending name).canonical = sending name := by
  have hne : "msg" ≠ "amount" := by decide
  have hlt : ¬ "msg" < "amount" := by decide
  simp only [sending, Json.canonical, Json.canonicalMembers, Json.sortMembers, List.foldl_cons,
    List.foldl_nil, Json.insertMember, if_neg hne, if_neg hlt]

theorem parseBytes?_sent (name : String) :
    Json.parseBytes? (sent name).body = some (sending name) := by
  rw [sent, Json.parseBytes?_compact rfl, Json.value?, Json.valueAt?, canonical_sending]
  exact if_pos rfl

theorem hooking_sending (name : String) :
    Message.Hooking (sending name) 500 (.object [(name, .object [])]) := by
  have hamount : Json.IsAmount (.text "500") 500 := Json.amount?_eq_some_iff.1 (by decide)
  refine ⟨_, ⟨_, _, _, rfl, .named _, hamount, .text _⟩, _, rfl, ?_⟩
  rw [Json.parseBytes?_compact rfl]
  rfl

end Hooked

namespace Message

theorem reading_of_hooks :
    ofExecution? (Hooked.sent "withdraw_liquidity") = some (.withdrawLiquidity "lp" 500) ∧
      ofExecution? (Hooked.sent "provide_liquidity") = some .other := by
  obtain ⟨-, hmeaning, -⟩ := reading_follows_grammar (Hooked.sent "withdraw_liquidity")
  obtain ⟨-, -, -, hother, -⟩ := reading_follows_grammar (Hooked.sent "provide_liquidity")
  constructor
  · exact (hmeaning (.withdrawLiquidity "lp" 500) (by decide)).2
      ⟨_, Hooked.parseBytes?_sent _, .withdrawLiquidity (Hooked.hooking_sending _) ⟨[], rfl⟩⟩
  · exact hother _ 500 "provide_liquidity" (.object []) (Hooked.parseBytes?_sent _)
      (Hooked.hooking_sending _) (by decide)

end Message

end PoolLedger
