import PoolLedger.Extraction
import PoolLedger.Proofs.Traverse

/-! Who reports what. Each contract event of a log names its contract. The hops of a
swap stand in columns over all events of an entry, whoever reported them. The groups
of a liquidity action come event by event when every event names the action before
its assets. -/

namespace PoolLedger

namespace LogEvent

def contracts (e : LogEvent) : List String := SwapHop.column e.attributes "_contract_address"

def isForeign (r : Registry) (e : LogEvent) : Bool :=
  e.kind = "wasm" && e.contracts.all fun a => (r.byAddress? a).isNone

/-- The form in which nodes report contract events: the contract comes first. -/
def NodeForm (e : LogEvent) : Prop :=
  e.attributes.head?.map Attribute.key = some "_contract_address"

instance (e : LogEvent) : Decidable e.NodeForm := inferInstanceAs (Decidable (_ = _))

def Swapless (e : LogEvent) : Prop := ∀ a ∈ e.attributes, a.key ∉ SwapHop.keys

instance (e : LogEvent) : Decidable e.Swapless :=
  inferInstanceAs (Decidable (∀ a ∈ e.attributes, _))

/-- Assets and share of an action come after the name of an action. -/
def Announced (action : LiquidityAction) (e : LogEvent) : Prop :=
  ∀ a ∈ e.attributes.takeWhile fun a => a.key ≠ "action",
    a.key ≠ action.assetsKey ∧ a.key ≠ action.shareKey

instance (action : LiquidityAction) (e : LogEvent) : Decidable (e.Announced action) :=
  inferInstanceAs (Decidable (∀ a ∈ e.attributes.takeWhile _, _))

def drafts (action : LiquidityAction) (e : LogEvent) : List LiquidityDraft :=
  (e.attributes.foldl (LiquidityScan.step action) .start).drafts

end LogEvent

namespace LogEntry

def contractEvents (e : LogEntry) : List LogEvent := e.events.filter fun ev => ev.kind = "wasm"

def native (r : Registry) (e : LogEntry) : LogEntry :=
  { e with events := e.events.filter fun ev => !ev.isForeign r }

theorem contractEvents_native (r : Registry) (e : LogEntry) :
    (e.native r).contractEvents = e.contractEvents.filter fun ev => !ev.isForeign r := by
  simp only [contractEvents, native, List.filter_filter, Bool.and_comm]

end LogEntry

theorem flatMap_filter_of_nil {α β : Type} {p : α → Bool} {f : α → List β} {xs : List α}
    (h : ∀ x ∈ xs, ¬ p x → f x = []) : (xs.filter p).flatMap f = xs.flatMap f := by
  induction xs with
  | nil => rfl
  | cons x xs ih =>
    have ih := ih fun y hy => h y (List.mem_cons_of_mem x hy)
    by_cases hp : p x
    · rw [List.filter_cons_of_pos hp, List.flatMap_cons, List.flatMap_cons, ih]
    · rw [List.filter_cons_of_neg hp, List.flatMap_cons, h x List.mem_cons_self hp, ih,
        List.nil_append]

namespace SwapHop

theorem column_flatMap (events : List LogEvent) (key : String) :
    column (events.flatMap LogEvent.attributes) key =
      events.flatMap fun ev => column ev.attributes key := by
  simp only [column, List.filter_flatMap, List.map_flatMap]

theorem column_of_swapless {ev : LogEvent} (h : ev.Swapless) {key : String} (hkey : key ∈ keys) :
    column ev.attributes key = [] := by
  rw [column, List.map_eq_nil_iff, List.filter_eq_nil_iff]
  intro a ha hak
  exact h a ha (of_decide_eq_true hak ▸ hkey)

theorem at?_congr {xs ys : List Attribute} (h : ∀ key ∈ keys, column xs key = column ys key)
    (i : Nat) : at? xs i = at? ys i := by
  simp only [keys, List.forall_mem_cons] at h
  obtain ⟨h₁, h₂, h₃, h₄, h₅, h₆, h₇, -⟩ := h
  simp only [at?, h₁, h₂, h₃, h₄, h₅, h₆, h₇]

end SwapHop

namespace LogEntry

variable {r : Registry} {e e' : LogEntry}

theorem swapHops_congr
    (h : ∀ key ∈ SwapHop.keys, SwapHop.column e.attributes key = SwapHop.column e'.attributes key) :
    e.swapHops = e'.swapHops := by
  have hat : SwapHop.at? e.attributes = SwapHop.at? e'.attributes :=
    funext fun i => SwapHop.at?_congr h i
  have hoffer := h "offer_asset" (by decide)
  have hany (n : Nat) :
      (SwapHop.keys.any fun key => (SwapHop.column e.attributes key).length ≠ n) =
        SwapHop.keys.any fun key => (SwapHop.column e'.attributes key).length ≠ n := by
    rw [Bool.eq_iff_iff, List.any_eq_true, List.any_eq_true]
    exact exists_congr fun key => and_congr_right fun hkey => by rw [h key hkey]
  simp only [swapHops, hat, hoffer, hany]

theorem swapHops_native (h : ∀ ev ∈ e.events, ev.isForeign r → ev.Swapless) :
    (e.native r).swapHops = e.swapHops := by
  refine swapHops_congr fun key hkey => ?_
  change SwapHop.column ((e.native r).contractEvents.flatMap LogEvent.attributes) key =
    SwapHop.column (e.contractEvents.flatMap LogEvent.attributes) key
  rw [SwapHop.column_flatMap, SwapHop.column_flatMap, contractEvents_native]
  refine flatMap_filter_of_nil fun ev hev hforeign => ?_
  exact SwapHop.column_of_swapless
    (h ev (List.mem_filter.1 hev).1 (by simpa using hforeign)) hkey

end LogEntry

namespace LiquidityScan

variable {action : LiquidityAction}

theorem foldl_step_done (contract : String) (current : Option LiquidityDraft)
    (done old : List LiquidityDraft) (attributes : List Attribute) :
    (attributes.foldl (step action) ⟨contract, current, done ++ old⟩).drafts =
      old.reverse ++ (attributes.foldl (step action) ⟨contract, current, done⟩).drafts := by
  induction attributes generalizing contract current done with
  | nil => simp [drafts]
  | cons a attributes ih =>
    rw [List.foldl_cons, List.foldl_cons]
    unfold step
    split
    · exact ih a.value current done
    · split
      · rw [← List.append_assoc]
        exact ih contract _ (current.toList ++ done)
      · split
        · exact ih contract _ done
        · split
          · exact ih contract _ done
          · exact ih contract current done

theorem foldl_step_announced {attributes : List Attribute}
    (h : ∀ a ∈ attributes.takeWhile fun a => a.key ≠ "action",
      a.key ≠ action.assetsKey ∧ a.key ≠ action.shareKey) (s : LiquidityScan) :
    (attributes.foldl (step action) s).drafts =
      s.drafts ++ (attributes.foldl (step action) ⟨s.contract, none, []⟩).drafts := by
  induction attributes generalizing s with
  | nil => simp [drafts]
  | cons a attributes ih =>
    obtain ⟨contract, current, done⟩ := s
    rw [List.foldl_cons, List.foldl_cons]
    -- an open draft takes nothing before the first action, which finishes it
    by_cases haction : a.key = "action"
    · have hcontract : a.key ≠ "_contract_address" := by rw [haction]; decide
      simp only [step, if_neg hcontract, if_pos haction]
      rw [← List.nil_append (current.toList ++ done), foldl_step_done]
      rfl
    · rw [List.takeWhile_cons_of_pos (by simpa using haction), List.forall_mem_cons] at h
      obtain ⟨⟨hassets, hshare⟩, hrest⟩ := h
      by_cases hcontract : a.key = "_contract_address"
      · simp only [step, if_pos hcontract]
        exact ih hrest ⟨a.value, current, done⟩
      · simp only [step, if_neg hcontract, if_neg haction, if_neg hassets, if_neg hshare]
        exact ih hrest ⟨contract, current, done⟩

structure Names (P : String → Prop) (s : LiquidityScan) : Prop where
  contract : P s.contract
  drafts : ∀ d ∈ s.current.toList ++ s.done, P d.pairAddress

theorem Names.step {P : String → Prop} {s : LiquidityScan} (h : Names P s) {a : Attribute}
    (ha : a.key = "_contract_address" → P a.value) : Names P (step action s a) := by
  obtain ⟨contract, current, done⟩ := s
  have hcurrent {f : LiquidityDraft → LiquidityDraft} (hf : ∀ d, (f d).pairAddress = d.pairAddress) :
      ∀ d ∈ (current.map f).toList ++ done, P d.pairAddress := by
    intro d hd
    rcases List.mem_append.1 hd with hd | hd
    · obtain ⟨d', hd', rfl⟩ := Option.map_eq_some_iff.1 (Option.mem_toList.1 hd)
      rw [hf]
      exact h.drafts d' (List.mem_append_left _ (Option.mem_toList.2 hd'))
    · exact h.drafts d (List.mem_append_right _ hd)
  unfold LiquidityScan.step
  split
  · exact ⟨ha ‹_›, h.drafts⟩
  · split
    · refine ⟨h.contract, fun d hd => ?_⟩
      rcases List.mem_append.1 hd with hd | hd
      · simp only [Option.mem_toList] at hd
        split at hd
        · rw [← Option.some.inj hd]
          exact h.contract
        · cases hd
      · exact h.drafts d hd
    · split
      · exact ⟨h.contract, hcurrent fun _ => rfl⟩
      · split
        · exact ⟨h.contract, hcurrent fun _ => rfl⟩
        · exact h

theorem Names.foldl {P : String → Prop} {s : LiquidityScan} (h : Names P s)
    {attributes : List Attribute}
    (ha : ∀ a ∈ SwapHop.column attributes "_contract_address", P a) :
    Names P (attributes.foldl (LiquidityScan.step action) s) := by
  induction attributes generalizing s with
  | nil => exact h
  | cons a attributes ih =>
    rw [List.foldl_cons]
    refine ih (h.step fun hkey => ?_) fun c hc => ?_
    · exact ha a.value (by simp [SwapHop.column, hkey])
    · refine ha c ?_
      obtain ⟨b, hb, rfl⟩ := List.mem_map.1 hc
      exact List.mem_map_of_mem (List.mem_filter.2
        ⟨List.mem_cons_of_mem a (List.mem_filter.1 hb).1, (List.mem_filter.1 hb).2⟩)

end LiquidityScan

namespace LogEvent

variable {action : LiquidityAction} {ev : LogEvent}

theorem NodeForm.attributes (h : ev.NodeForm) :
    ∃ address rest, ev.attributes = ⟨"_contract_address", address⟩ :: rest := by
  obtain ⟨a, ha, hkey⟩ := Option.map_eq_some_iff.1 h
  obtain ⟨rest, hrest⟩ := List.head?_eq_some_iff.1 ha
  exact ⟨a.value, rest, by rw [hrest, ← hkey]⟩

theorem address_of_mem_drafts (hform : ev.NodeForm) {d : LiquidityDraft}
    (hd : d ∈ ev.drafts action) : d.pairAddress ∈ ev.contracts := by
  obtain ⟨address, rest, hattributes⟩ := hform.attributes
  have hstart : LiquidityScan.Names (· ∈ ev.contracts) ⟨address, none, []⟩ :=
    ⟨by simp [contracts, hattributes, SwapHop.column], by simp⟩
  have hrest : ∀ c ∈ SwapHop.column rest "_contract_address", c ∈ ev.contracts := by
    intro c hc
    obtain ⟨a, ha, rfl⟩ := List.mem_map.1 hc
    rw [contracts, hattributes]
    exact List.mem_map_of_mem (List.mem_filter.2
      ⟨List.mem_cons_of_mem _ (List.mem_filter.1 ha).1, (List.mem_filter.1 ha).2⟩)
  rw [drafts, hattributes, List.foldl_cons] at hd
  exact (hstart.foldl hrest).drafts d (List.mem_reverse.1 hd)

theorem drafts_from (hform : ev.NodeForm) (contract : String) :
    (ev.attributes.foldl (LiquidityScan.step action) ⟨contract, none, []⟩).drafts =
      ev.drafts action := by
  obtain ⟨address, rest, hattributes⟩ := hform.attributes
  rw [drafts, hattributes]
  rfl

end LogEvent

namespace LogEntry

variable {action : LiquidityAction} {r : Registry}

theorem foldl_events {events : List LogEvent} (hform : ∀ ev ∈ events, ev.NodeForm)
    (hannounced : ∀ ev ∈ events, ev.Announced action) (s : LiquidityScan) :
    ((events.flatMap LogEvent.attributes).foldl (LiquidityScan.step action) s).drafts =
      s.drafts ++ events.flatMap (LogEvent.drafts action) := by
  induction events generalizing s with
  | nil => simp
  | cons ev events ih =>
    rw [List.flatMap_cons, List.foldl_append,
      ih (fun e he => hform e (List.mem_cons_of_mem ev he))
        fun e he => hannounced e (List.mem_cons_of_mem ev he),
      LiquidityScan.foldl_step_announced (hannounced ev List.mem_cons_self),
      LogEvent.drafts_from (hform ev List.mem_cons_self), List.flatMap_cons, List.append_assoc]

/-- Each contract event is in node form, and names an action before its assets and
share. What foreign contracts report of an action can be read, and none of them is
nameless. -/
structure Tidy (r : Registry) (action : LiquidityAction) (e : LogEntry) : Prop where
  form : ∀ ev ∈ e.contractEvents, ev.NodeForm
  announced : ∀ ev ∈ e.contractEvents, ev.Announced action
  named : ∀ ev ∈ e.contractEvents, "" ∉ ev.contracts
  readable : ∀ ev ∈ e.contractEvents, ev.isForeign r →
    ((ev.drafts action).mapM LiquidityDraft.group?).isSome

instance (e : LogEntry) : Decidable (e.Tidy r action) :=
  decidable_of_iff ((∀ ev ∈ e.contractEvents, ev.NodeForm) ∧
      (∀ ev ∈ e.contractEvents, ev.Announced action) ∧
      (∀ ev ∈ e.contractEvents, "" ∉ ev.contracts) ∧
      ∀ ev ∈ e.contractEvents, ev.isForeign r →
        ((ev.drafts action).mapM LiquidityDraft.group?).isSome)
    ⟨fun h => ⟨h.1, h.2.1, h.2.2.1, h.2.2.2⟩, fun h => ⟨h.form, h.announced, h.named, h.readable⟩⟩

theorem liquidityGroups?_eq {e : LogEntry} (h : e.Tidy r action) :
    e.liquidityGroups? action =
      (e.contractEvents.flatMap (LogEvent.drafts action)).mapM LiquidityDraft.group? :=
  congrArg (List.mapM LiquidityDraft.group?) (foldl_events h.form h.announced .start)

theorem Tidy.native {e : LogEntry} (h : e.Tidy r action) : (e.native r).Tidy r action := by
  have hsub : ∀ ev ∈ (e.native r).contractEvents, ev ∈ e.contractEvents := by
    rw [contractEvents_native]
    exact fun ev hev => (List.mem_filter.1 hev).1
  exact ⟨fun ev hev => h.form ev (hsub ev hev), fun ev hev => h.announced ev (hsub ev hev),
    fun ev hev => h.named ev (hsub ev hev), fun ev hev => h.readable ev (hsub ev hev)⟩

theorem group_address {d : LiquidityDraft} {g : LiquidityGroup} (h : d.group? = some g) :
    g.pairAddress = d.pairAddress := by
  simp only [LiquidityDraft.group?, Option.bind_eq_bind, Option.bind_eq_some_iff] at h
  obtain ⟨assets, -, coins, -, h⟩ := h
  split at h
  · cases h
    rfl
  · obtain ⟨share, -, h⟩ := Option.bind_eq_some_iff.1 h
    cases h
    rfl

theorem map_mapM_append {α β γ : Type} (g : α → Option β) (f : β → List γ) (xs ys : List α) :
    ((xs ++ ys).mapM g).map (List.flatMap f) =
      ((xs.mapM g).map (List.flatMap f)).bind fun zs =>
        ((ys.mapM g).map (List.flatMap f)).map (zs ++ ·) := by
  rw [List.mapM_append]
  cases xs.mapM g with
  | none => rfl
  | some zs =>
    cases ys.mapM g with
    | none => rfl
    | some ws => exact congrArg some List.flatMap_append

theorem map_liquidityGroups {β : Type} {f : LiquidityGroup → List β} {e : LogEntry}
    (h : e.Tidy r action)
    (hf : ∀ g, g.pairAddress ≠ "" → r.byAddress? g.pairAddress = none → f g = []) :
    ((e.native r).liquidityGroups? action).map (List.flatMap f) =
      (e.liquidityGroups? action).map (List.flatMap f) := by
  rw [liquidityGroups?_eq h, liquidityGroups?_eq h.native, contractEvents_native]
  have hforeign : ∀ ev ∈ e.contractEvents, ev.isForeign r →
      ((ev.drafts action).mapM LiquidityDraft.group?).map (List.flatMap f) = some [] := by
    intro ev hev hforeign
    obtain ⟨groups, hgroups⟩ := Option.isSome_iff_exists.1 (h.readable ev hev hforeign)
    rw [hgroups, Option.map_some, Option.some.injEq, List.flatMap_eq_nil_iff]
    intro g hg
    obtain ⟨d, hd, hdg⟩ := (Traverse.mem_of_mapM_some hgroups).1 hg
    have haddress := LogEvent.address_of_mem_drafts (h.form ev hev) hd
    rw [← group_address hdg] at haddress
    refine hf g (fun hempty => h.named ev hev (hempty ▸ haddress)) ?_
    have hall := (Bool.and_eq_true_iff.1 hforeign).2
    exact Option.isNone_iff_eq_none.1 (List.all_eq_true.1 hall _ haddress)
  -- event by event: foreign ones come to nothing on both sides
  generalize e.contractEvents = events at hforeign
  induction events with
  | nil => rfl
  | cons ev events ih =>
    have ih := ih fun ev' hev => hforeign ev' (List.mem_cons_of_mem ev hev)
    rw [List.flatMap_cons, map_mapM_append, ← ih]
    by_cases hev : ev.isForeign r = true
    · rw [List.filter_cons_of_neg (by simp [hev]), hforeign ev List.mem_cons_self hev,
        Option.bind_some]
      simp only [List.nil_append, Option.map_id']
    · rw [List.filter_cons_of_pos (by simp [hev]), List.flatMap_cons, map_mapM_append]

end LogEntry

namespace Log

theorem entryOf?_map {f : LogEntry → LogEntry} (hf : ∀ e, (f e).msgIndex = e.msgIndex)
    (log : List LogEntry) (msg : Nat) : entryOf? (log.map f) msg = (entryOf? log msg).map f := by
  have hindexed (place : Nat) :
      indexedFrom place (log.map f) = (indexedFrom place log).map fun p => (p.1, f p.2) := by
    induction log generalizing place with
    | nil => rfl
    | cons e rest ih => rw [List.map_cons, indexedFrom, indexedFrom, hf, ih]; rfl
  rw [entryOf?, entryOf?, indexed, hindexed, ← List.map_reverse, List.find?_map, Option.map_map,
    Option.map_map]
  rfl

theorem mem_of_indexedFrom {place : Nat} {log : List LogEntry} {p : Nat × LogEntry}
    (h : p ∈ indexedFrom place log) : p.2 ∈ log := by
  induction log generalizing place with
  | nil => cases h
  | cons e rest ih =>
    rcases List.mem_cons.1 h with rfl | h
    · exact List.mem_cons_self
    · exact List.mem_cons_of_mem _ (ih h)

theorem mem_of_entryOf? {log : List LogEntry} {msg : Nat} {e : LogEntry}
    (h : entryOf? log msg = some e) : e ∈ log := by
  obtain ⟨p, hp, rfl⟩ := Option.map_eq_some_iff.1 h
  exact mem_of_indexedFrom (List.mem_reverse.1 (List.mem_of_find?_eq_some hp))

end Log

end PoolLedger
