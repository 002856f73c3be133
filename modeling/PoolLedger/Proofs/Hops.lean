import Mathlib.Data.List.Forall2
import PoolLedger.Proofs.Emitters

/-! Hops. The values of a hop stand under seven keys, and the hops of an entry one after the
other: the hop at a place is made of the values at that place under each key. So hops are read
back whatever stands between their attributes and however these are cut into events. -/

namespace PoolLedger

/-- Attributes cut into contract events, with other events anywhere between. -/
inductive Cut : List Attribute → List LogEvent → Prop
  | nil : Cut [] []
  | piece (piece : List Attribute) {rest : List Attribute} {events : List LogEvent} :
    Cut rest events → Cut (piece ++ rest) (⟨"wasm", piece⟩ :: events)
  | other {attributes : List Attribute} {event : LogEvent} {events : List LogEvent}
    (kind : event.kind ≠ "wasm") : Cut attributes events → Cut attributes (event :: events)

theorem Cut.attributes_eq {attributes : List Attribute} {e : LogEntry}
    (h : Cut attributes e.events) : e.attributes = attributes := by
  rw [LogEntry.attributes]
  generalize e.events = events at h
  induction h with
  | nil => rfl
  | piece piece _ ih => rw [List.filter_cons_of_pos (by simp), List.flatMap_cons, ih]
  | other kind _ ih => rw [List.filter_cons_of_neg (by simpa using kind), ih]

def occurrences (attributes : List Attribute) (key : String) : Nat :=
  attributes.countP fun a => a.key = key

theorem occurrences_cons_self {a : Attribute} {key : String} (h : a.key = key)
    (attributes : List Attribute) :
    occurrences (a :: attributes) key = occurrences attributes key + 1 :=
  List.countP_cons_of_pos (decide_eq_true h)

theorem occurrences_cons_ne {a : Attribute} {key : String} (h : a.key ≠ key)
    (attributes : List Attribute) :
    occurrences (a :: attributes) key = occurrences attributes key :=
  List.countP_cons_of_neg (by simpa using h)

/-- The value of the attribute before which a key occurs `j` times. -/
def IsNth (attributes : List Attribute) (key : String) (j : Nat) (value : String) : Prop :=
  ∃ before after, attributes = before ++ ⟨key, value⟩ :: after ∧ occurrences before key = j

namespace SwapHop

variable {attributes : List Attribute} {key value : String} {i j k : Nat} {hop : SwapHop}
  {hops : List SwapHop} {text : String → String}

theorem column_append (xs ys : List Attribute) (key : String) :
    column (xs ++ ys) key = column xs key ++ column ys key := by
  simp only [column, List.filter_append, List.map_append]

theorem column_cons_self {a : Attribute} (h : a.key = key) (attributes : List Attribute) :
    column (a :: attributes) key = a.value :: column attributes key := by
  rw [column, List.filter_cons_of_pos (by simpa using h)]
  rfl

theorem column_cons_ne {a : Attribute} (h : a.key ≠ key) (attributes : List Attribute) :
    column (a :: attributes) key = column attributes key := by
  rw [column, List.filter_cons_of_neg (by simpa using h)]
  rfl

theorem length_column (attributes : List Attribute) (key : String) :
    (column attributes key).length = occurrences attributes key := by
  rw [column, List.length_map, occurrences, List.countP_eq_length_filter]

theorem isNth_of_column (h : (column attributes key)[j]? = some value) :
    IsNth attributes key j value := by
  induction attributes generalizing j with
  | nil => cases h
  | cons a rest ih =>
    by_cases hkey : a.key = key
    · rw [column_cons_self hkey] at h
      cases j with
      | zero =>
        obtain ⟨⟩ := h
        obtain ⟨⟩ := hkey
        exact ⟨[], rest, rfl, rfl⟩
      | succ j =>
        obtain ⟨before, after, rfl, hcount⟩ := ih h
        exact ⟨a :: before, after, rfl, by rw [occurrences_cons_self hkey, hcount]⟩
    · rw [column_cons_ne hkey] at h
      obtain ⟨before, after, rfl, hcount⟩ := ih h
      exact ⟨a :: before, after, rfl, by rw [occurrences_cons_ne hkey, hcount]⟩

theorem column_getElem?_iff :
    (column attributes key)[j]? = some value ↔ IsNth attributes key j value := by
  refine ⟨isNth_of_column, ?_⟩
  rintro ⟨before, after, rfl, rfl⟩
  rw [column_append, column_cons_self rfl, ← length_column, List.getElem?_append_right (Nat.le_refl _),
    Nat.sub_self]
  rfl

def amountKeys : List String :=
  ["offer_amount", "return_amount", "tax_amount", "commission_amount", "spread_amount"]

theorem amountKeys_subset : amountKeys ⊆ keys := by decide

structure Reads (hop : SwapHop) (text : String → String) : Prop where
  offerAsset : text "offer_asset" = hop.offerAsset
  askAsset : text "ask_asset" = hop.askAsset
  offerAmount : Ranged.read? (text "offer_amount") = some hop.offerAmount
  returnAmount : Ranged.read? (text "return_amount") = some hop.returnAmount
  taxAmount : Ranged.read? (text "tax_amount") = some hop.taxAmount
  commissionAmount : Ranged.read? (text "commission_amount") = some hop.commissionAmount
  spreadAmount : Ranged.read? (text "spread_amount") = some hop.spreadAmount

theorem Reads.amount (h : hop.Reads text) {key : String} (hkey : key ∈ amountKeys) :
    ∃ amount : Amount, Ranged.read? (text key) = some amount := by
  simp only [amountKeys, List.mem_cons, List.not_mem_nil, or_false] at hkey
  obtain rfl | rfl | rfl | rfl | rfl := hkey
  · exact ⟨_, h.offerAmount⟩
  · exact ⟨_, h.returnAmount⟩
  · exact ⟨_, h.taxAmount⟩
  · exact ⟨_, h.commissionAmount⟩
  · exact ⟨_, h.spreadAmount⟩

theorem exists_reads (h : ∀ key ∈ amountKeys, ∃ amount : Amount,
    Ranged.read? (text key) = some amount) : ∃ hop : SwapHop, hop.Reads text := by
  simp only [amountKeys, List.forall_mem_cons] at h
  obtain ⟨⟨offer, hoffer⟩, ⟨ret, hret⟩, ⟨tax, htax⟩, ⟨com, hcom⟩, ⟨spread, hspread⟩, -⟩ := h
  exact ⟨⟨_, _, offer, ret, tax, com, spread⟩, rfl, rfl, hoffer, hret, htax, hcom, hspread⟩

theorem at?_eq_some_iff : at? attributes i = some hop ↔
    ∃ text, hop.Reads text ∧ ∀ key ∈ keys, IsNth attributes key i (text key) := by
  simp only [← column_getElem?_iff, at?, bind, Option.bind_eq_some_iff, pure, Option.some.injEq]
  constructor
  · rintro ⟨_, h₁, _, h₂, _, ⟨_, h₃, hoffer⟩, _, ⟨_, h₄, hret⟩, _, ⟨_, h₅, htax⟩, _,
      ⟨_, h₆, hcom⟩, _, ⟨_, h₇, hspread⟩, rfl⟩
    refine ⟨fun key => (column attributes key)[i]?.getD "", ?_, ?_⟩
    · constructor <;> simp_all
    · simp [keys, *]
  · rintro ⟨text, reads, h⟩
    simp only [keys, List.forall_mem_cons] at h
    obtain ⟨h₁, h₂, h₃, h₄, h₅, h₆, h₇, -⟩ := h
    exact ⟨_, h₁, _, h₂, _, ⟨_, h₃, reads.offerAmount⟩, _, ⟨_, h₄, reads.returnAmount⟩, _,
      ⟨_, h₅, reads.taxAmount⟩, _, ⟨_, h₆, reads.commissionAmount⟩, _,
      ⟨_, h₇, reads.spreadAmount⟩, by rw [reads.offerAsset, reads.askAsset]⟩

/-- Every key occurs `k` times, and every amount can be read. -/
structure Complete (attributes : List Attribute) (k : Nat) : Prop where
  occurs : ∀ key ∈ keys, occurrences attributes key = k
  readable : ∀ a ∈ attributes, a.key ∈ amountKeys →
    ∃ amount : Amount, Ranged.read? a.value = some amount

theorem exists_at? (h : Complete attributes k) (hj : j < k) :
    ∃ hop, at? attributes j = some hop := by
  have hlt : ∀ key ∈ keys, j < (column attributes key).length := fun key hkey => by
    rwa [length_column, h.occurs key hkey]
  let text key := (column attributes key)[j]?.getD ""
  have hnth : ∀ key ∈ keys, IsNth attributes key j (text key) := fun key hkey =>
    column_getElem?_iff.1
      (by simp only [text, List.getElem?_eq_getElem (hlt key hkey), Option.getD_some])
  obtain ⟨hop, hreads⟩ : ∃ hop : SwapHop, hop.Reads text := by
    refine exists_reads fun key hkey => ?_
    obtain ⟨before, after, hcut, -⟩ := hnth key (amountKeys_subset hkey)
    exact h.readable ⟨key, text key⟩
      (hcut ▸ List.mem_append_right before List.mem_cons_self) hkey
  exact ⟨hop, at?_eq_some_iff.2 ⟨text, hreads, hnth⟩⟩

/-- Attributes among which a hop is told: once under each of its keys, in any order. -/
def SpelledBy (hop : SwapHop) (group : List Attribute) : Prop :=
  ∃ text, hop.Reads text ∧
    (group.filter fun a => a.key ∈ keys).Perm (keys.map fun key => ⟨key, text key⟩)

theorem SpelledBy.columns {group : List Attribute} (h : hop.SpelledBy group) :
    ∃ text, hop.Reads text ∧ ∀ key ∈ keys, column group key = [text key] := by
  obtain ⟨text, reads, hperm⟩ := h
  refine ⟨text, reads, fun key hkey => ?_⟩
  have hgroup : column (group.filter fun a => a.key ∈ keys) key = column group key := by
    rw [column, List.filter_filter]
    refine congrArg _ (List.filter_congr fun a _ => ?_)
    rw [Bool.and_eq_left_iff_imp]
    intro ha
    simpa [of_decide_eq_true ha] using hkey
  have hspelled : column (keys.map fun key => ⟨key, text key⟩) key = [text key] := by
    simp only [keys, List.mem_cons, List.not_mem_nil, or_false] at hkey
    obtain rfl | rfl | rfl | rfl | rfl | rfl | rfl := hkey <;> rfl
  rw [← List.perm_singleton, ← hgroup, ← hspelled]
  exact (hperm.filter _).map _

variable {groups : List (List Attribute)}

theorem column_of_spelled (h : List.Forall₂ SpelledBy hops groups) :
    (∀ key ∈ keys, occurrences groups.flatten key = hops.length) ∧
    ∀ j hop, hops[j]? = some hop →
      ∃ text, hop.Reads text ∧ ∀ key ∈ keys, IsNth groups.flatten key j (text key) := by
  simp only [← length_column, ← column_getElem?_iff]
  induction h with
  | nil => exact ⟨fun key _ => rfl, nofun⟩
  | @cons hop group hops groups hspelled _ ih =>
    obtain ⟨text, reads, hgroup⟩ := hspelled.columns
    obtain ⟨hlength, hnth⟩ := ih
    have hcolumn : ∀ key ∈ keys,
        column (group :: groups).flatten key = text key :: column groups.flatten key :=
      fun key hkey => by
        rw [List.flatten_cons, column_append, hgroup key hkey, List.singleton_append]
    refine ⟨fun key hkey => ?_, fun j hop' hj => ?_⟩
    · rw [hcolumn key hkey, List.length_cons, List.length_cons, hlength key hkey]
    · cases j with
      | zero =>
        obtain ⟨⟩ := hj
        exact ⟨text, reads, fun key hkey => by rw [hcolumn key hkey]; rfl⟩
      | succ j =>
        obtain ⟨text', reads', h'⟩ := hnth j hop' hj
        exact ⟨text', reads', fun key hkey => by rw [hcolumn key hkey]; exact h' key hkey⟩

end SwapHop

namespace LogEntry

open SwapHop

variable {e : LogEntry} {hops : List SwapHop} {k : Nat}

theorem swapHops_of_even (h : ∀ key ∈ keys, occurrences e.attributes key = k) :
    e.swapHops =
      if k = 0 then .error .missing
      else
        match (List.range k).mapM (at? e.attributes) with
        | some hs => .ok hs
        | none => .error .malformed := by
  simp only [← length_column] at h
  have heven : (keys.any fun key => (column e.attributes key).length ≠ k) = false := by
    rw [List.any_eq_false]
    exact fun key hkey => by simp [h key hkey]
  simp only [swapHops, h "offer_asset" (by decide), heven]
  rfl

theorem swapHops_of_uneven (h : ¬∃ k, ∀ key ∈ keys, occurrences e.attributes key = k) :
    e.swapHops = .error .malformed := by
  simp only [← length_column] at h
  rw [swapHops, if_pos]
  rw [List.any_eq_true]
  by_contra hnone
  refine h ⟨(column e.attributes "offer_asset").length, fun key hkey => ?_⟩
  by_contra hne
  exact hnone ⟨key, hkey, decide_eq_true hne⟩

theorem swapHops_eq_ok_iff : e.swapHops = .ok hops ↔
    hops ≠ [] ∧ (∀ key ∈ keys, occurrences e.attributes key = hops.length) ∧
      ∀ j hop, hops[j]? = some hop →
        ∃ text, hop.Reads text ∧ ∀ key ∈ keys, IsNth e.attributes key j (text key) := by
  simp only [← at?_eq_some_iff]
  constructor
  · intro h
    by_cases heven : ∃ k, ∀ key ∈ keys, occurrences e.attributes key = k
    · obtain ⟨k, hk⟩ := heven
      rw [swapHops_of_even hk] at h
      split at h
      · cases h
      · rename_i hne
        split at h
        · rename_i hs hread
          obtain ⟨⟩ := h
          obtain ⟨rfl, hat⟩ := Traverse.mapM_range_eq_some.1 hread
          exact ⟨List.ne_nil_of_length_pos (Nat.pos_of_ne_zero hne), hk, hat⟩
        · cases h
    · rw [swapHops_of_uneven heven] at h
      cases h
  · rintro ⟨hne, hk, hat⟩
    rw [swapHops_of_even hk, if_neg (mt List.eq_nil_of_length_eq_zero hne),
      Traverse.mapM_range_eq_some.2 ⟨rfl, hat⟩]

theorem complete_of_ok (h : e.swapHops = .ok hops) : Complete e.attributes hops.length := by
  obtain ⟨-, hoccurs, hnth⟩ := swapHops_eq_ok_iff.1 h
  refine ⟨hoccurs, fun a ha hkey => ?_⟩
  obtain ⟨before, after, hcut⟩ := List.append_of_mem ha
  have hlt : occurrences before a.key < hops.length := by
    rw [← hoccurs a.key (amountKeys_subset hkey), hcut, occurrences, occurrences,
      List.countP_append, List.countP_cons_of_pos (by simp)]
    omega
  obtain ⟨text, reads, htext⟩ := hnth _ _ (List.getElem?_eq_getElem hlt)
  have hvalue : text a.key = a.value := by
    have hat := column_getElem?_iff.2 (htext a.key (amountKeys_subset hkey))
    rw [column_getElem?_iff.2 ⟨before, after, hcut, rfl⟩] at hat
    exact (Option.some.inj hat).symm
  exact hvalue ▸ reads.amount hkey

theorem exists_ok_of_complete (h : Complete e.attributes k) (hk : k ≠ 0) :
    ∃ hops, e.swapHops = .ok hops ∧ hops.length = k := by
  obtain ⟨hops, hread⟩ := Traverse.mapM_isSome fun j hj => exists_at? h (List.mem_range.1 hj)
  refine ⟨hops, ?_, (Traverse.mapM_range_eq_some.1 hread).1⟩
  rw [swapHops_of_even h.occurs, if_neg hk, hread]

theorem swapHops_eq_missing_iff :
    e.swapHops = .error .missing ↔ ∀ a ∈ e.attributes, a.key ∉ keys := by
  have hnone : (∀ a ∈ e.attributes, a.key ∉ keys) ↔
      ∀ key ∈ keys, occurrences e.attributes key = 0 := by
    simp only [occurrences, List.countP_eq_zero, decide_eq_true_eq]
    exact ⟨fun h key hkey a ha hak => h a ha (hak ▸ hkey), fun h a ha hak => h _ hak a ha rfl⟩
  rw [hnone]
  constructor
  · intro h
    by_cases heven : ∃ k, ∀ key ∈ keys, occurrences e.attributes key = k
    · obtain ⟨k, hk⟩ := heven
      rw [swapHops_of_even hk] at h
      split at h
      · rename_i hzero
        exact hzero ▸ hk
      · split at h
        · cases h
        · cases h
    · rw [swapHops_of_uneven heven] at h
      cases h
  · intro h
    rw [swapHops_of_even h, if_pos rfl]

theorem swapHops_eq_malformed_iff : e.swapHops = .error .malformed ↔
    (∃ a ∈ e.attributes, a.key ∈ keys) ∧ ∀ k, ¬Complete e.attributes k := by
  constructor
  · intro h
    have hsome : ∃ a ∈ e.attributes, a.key ∈ keys := by
      by_contra hnone
      rw [swapHops_eq_missing_iff.2 fun a ha hkey => hnone ⟨a, ha, hkey⟩] at h
      cases h
    refine ⟨hsome, fun k hk => ?_⟩
    by_cases hzero : k = 0
    · rw [swapHops_of_even hk.occurs, if_pos hzero] at h
      cases h
    · obtain ⟨hops, hok, -⟩ := exists_ok_of_complete hk hzero
      rw [hok] at h
      cases h
  · rintro ⟨⟨a, ha, hkey⟩, hk⟩
    cases h : e.swapHops with
    | ok hops => exact absurd (complete_of_ok h) (hk _)
    | error fault =>
      cases fault with
      | missing => exact absurd hkey (swapHops_eq_missing_iff.1 h a ha)
      | malformed => rfl

/-- An entry has `k` hops when each key occurs `k` times and every amount can be read, and each
hop is then told by the values at its place; it has none when no key occurs, and is malformed
in every other case. Hops told one after the other are read back as they are, in whatever
order the attributes of each stand, whatever else stands between them and however all of it
is cut into events. -/
theorem hops_told_are_hops_read (e : LogEntry) :
    (∀ hops, e.swapHops = .ok hops ↔
      hops ≠ [] ∧ (∀ key ∈ keys, occurrences e.attributes key = hops.length) ∧
        ∀ j hop, hops[j]? = some hop →
          ∃ text, hop.Reads text ∧ ∀ key ∈ keys, IsNth e.attributes key j (text key)) ∧
    (∀ k, (∃ hops, e.swapHops = .ok hops ∧ hops.length = k) ↔
      1 ≤ k ∧ Complete e.attributes k) ∧
    (e.swapHops = .error .missing ↔ ∀ a ∈ e.attributes, a.key ∉ keys) ∧
    (e.swapHops = .error .malformed ↔
      (∃ a ∈ e.attributes, a.key ∈ keys) ∧ ∀ k, ¬Complete e.attributes k) ∧
    ∀ hops groups, hops ≠ [] → List.Forall₂ SpelledBy hops groups →
      Cut groups.flatten e.events → e.swapHops = .ok hops := by
  refine ⟨fun hops => swapHops_eq_ok_iff, fun k => ⟨?_, ?_⟩, swapHops_eq_missing_iff,
    swapHops_eq_malformed_iff, fun hops groups hne hspelled hcut => ?_⟩
  · rintro ⟨hops, h, rfl⟩
    exact ⟨List.length_pos_of_ne_nil (swapHops_eq_ok_iff.1 h).1, complete_of_ok h⟩
  · rintro ⟨hk, hcomplete⟩
    exact exists_ok_of_complete hcomplete (Nat.ne_of_gt hk)
  · rw [swapHops_eq_ok_iff, hcut.attributes_eq]
    exact ⟨hne, column_of_spelled hspelled⟩

end LogEntry

namespace Relay

def toLuna : List Attribute :=
  [⟨"_contract_address", "terra1pair"⟩, ⟨"spread_amount", "1"⟩, ⟨"ask_asset", "uluna"⟩,
    ⟨"return_amount", "97"⟩, ⟨"action", "swap"⟩, ⟨"offer_asset", "ustake"⟩,
    ⟨"tax_amount", "0"⟩, ⟨"commission_amount", "2"⟩, ⟨"offer_amount", "100"⟩]

def toUsd : List Attribute :=
  [⟨"offer_asset", "uluna"⟩, ⟨"ask_asset", "uusd"⟩, ⟨"offer_amount", "97"⟩,
    ⟨"return_amount", "+40"⟩, ⟨"tax_amount", "3"⟩, ⟨"spread_amount", "0"⟩,
    ⟨"maker", ""⟩, ⟨"commission_amount", "1"⟩]

def twoHops : List SwapHop :=
  [⟨"ustake", "uluna", 100, 97, 0, 2, 1⟩, ⟨"uluna", "uusd", 97, 40, 3, 1, 0⟩]

def relayed : LogEntry :=
  ⟨none, [⟨"wasm", toLuna.take 7⟩, ⟨"transfer", [⟨"offer_amount", "100ustake"⟩]⟩,
    ⟨"wasm", toLuna.drop 7 ++ toUsd⟩]⟩

end Relay

open Relay in
theorem LogEntry.relayed_hops_read :
    List.Forall₂ SwapHop.SpelledBy twoHops [toLuna, toUsd] ∧
    Cut [toLuna, toUsd].flatten relayed.events ∧ relayed.swapHops = .ok twoHops := by
  have hspelled : List.Forall₂ SwapHop.SpelledBy twoHops [toLuna, toUsd] := by
    refine .cons ⟨fun key => (SwapHop.column toLuna key).headD "", ?_, ?_⟩
      (.cons ⟨fun key => (SwapHop.column toUsd key).headD "", ?_, ?_⟩ .nil)
    · constructor <;> decide +kernel
    · decide +kernel
    · constructor <;> decide +kernel
    · decide +kernel
  have hcut : Cut [toLuna, toUsd].flatten relayed.events :=
    .piece (toLuna.take 7) (.other (by decide) (.piece (toLuna.drop 7 ++ toUsd) .nil))
  exact ⟨hspelled, hcut, (LogEntry.hops_told_are_hops_read relayed).2.2.2.2 twoHops
    [toLuna, toUsd] (List.cons_ne_nil _ _) hspelled hcut⟩

end PoolLedger
