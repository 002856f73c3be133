import Mathlib.Data.List.Forall2
import Mathlib.Data.List.Induction
import Mathlib.Data.List.TakeWhile
import PoolLedger.Extraction
import PoolLedger.Proofs.Hops

/-! Groups of a change of liquidity. A report runs from the name of the wanted action to the
next name of any action. What is read off an entry attribute by attribute is one group for
each report: the contract named last before it, and the last assets and the last share in it. -/

namespace PoolLedger

def lastValue? (attributes : List Attribute) (key : String) : Option String :=
  (SwapHop.column attributes key).getLast?

theorem lastValue?_append (xs ys : List Attribute) (key : String) :
    lastValue? (xs ++ ys) key = (lastValue? ys key).or (lastValue? xs key) := by
  rw [lastValue?, SwapHop.column_append, List.getLast?_append]
  rfl

theorem lastValue?_singleton (a : Attribute) (key : String) :
    lastValue? [a] key = if a.key = key then some a.value else none := by
  rw [lastValue?]
  split
  · rename_i h
    rw [SwapHop.column_cons_self h]
    rfl
  · rename_i h
    rw [SwapHop.column_cons_ne h]
    rfl

theorem LiquidityDraft.group?_eq_some_iff {d : LiquidityDraft} {g : LiquidityGroup} :
    d.group? = some g ↔ g.pairAddress = d.pairAddress ∧
      (∃ text, d.assets = some text ∧ readCoinPair? text = some (g.first, g.second)) ∧
      d.share.map Ranged.read? = g.share.map some := by
  obtain ⟨address, assets, share⟩ := d
  cases share with
  | none =>
    simp only [group?, bind, Option.bind_eq_some_iff, pure, Option.some.injEq]
    constructor
    · rintro ⟨text, htext, coins, hcoins, _, rfl, rfl⟩
      exact ⟨rfl, ⟨text, htext, hcoins⟩, rfl⟩
    · rintro ⟨rfl, ⟨text, htext, hcoins⟩, hshare⟩
      exact ⟨text, htext, _, hcoins, _, (Option.map_eq_none_iff.1 hshare.symm).symm, rfl⟩
  | some raw =>
    simp only [group?, bind, Option.bind_eq_some_iff, pure, Option.some.injEq,
      Option.map_eq_some_iff]
    constructor
    · rintro ⟨text, htext, coins, hcoins, _, ⟨share, hread, rfl⟩, rfl⟩
      exact ⟨rfl, ⟨text, htext, hcoins⟩, congrArg some hread⟩
    · rintro ⟨rfl, ⟨text, htext, hcoins⟩, hshare⟩
      obtain ⟨share, hsome, hread⟩ := Option.map_eq_some_iff.1 hshare.symm
      exact ⟨text, htext, _, hcoins, _, ⟨share, hread.symm, hsome.symm⟩, rfl⟩

/-- What stands before the name of a wanted action, and what its contract reports after it. -/
structure ActionReport where
  before : List Attribute
  body : List Attribute

namespace ActionReport

variable {action : LiquidityAction} {attributes : List Attribute} {s : ActionReport}

def untilAction (attributes : List Attribute) : List Attribute :=
  attributes.takeWhile fun a => a.key ≠ "action"

theorem untilAction_cons_of_action {a : Attribute} (h : a.key = "action")
    (attributes : List Attribute) : untilAction (a :: attributes) = [] :=
  List.takeWhile_cons_of_neg (by simpa using h)

theorem untilAction_cons_of_ne {a : Attribute} (h : a.key ≠ "action")
    (attributes : List Attribute) : untilAction (a :: attributes) = a :: untilAction attributes :=
  List.takeWhile_cons_of_pos (by simpa using h)

def reportsAfter (action : LiquidityAction) : List Attribute → List Attribute → List ActionReport
  | _, [] => []
  | before, a :: rest =>
    if a = ⟨"action", action.name⟩ then
      ⟨before, untilAction rest⟩ :: reportsAfter action (before ++ [a]) rest
    else reportsAfter action (before ++ [a]) rest

def reports (action : LiquidityAction) (attributes : List Attribute) : List ActionReport :=
  reportsAfter action [] attributes

/-- Between its action's name and the next name of an action, or the end. -/
def StandsIn (action : LiquidityAction) (attributes : List Attribute) (s : ActionReport) : Prop :=
  ∃ after, attributes = s.before ++ ⟨"action", action.name⟩ :: (s.body ++ after) ∧
    (∀ a ∈ s.body, a.key ≠ "action") ∧ ∀ a ∈ after.head?, a.key = "action"

theorem untilAction_eq_iff {rest body : List Attribute} : untilAction rest = body ↔
    ∃ after, rest = body ++ after ∧ (∀ a ∈ body, a.key ≠ "action") ∧
      ∀ a ∈ after.head?, a.key = "action" := by
  constructor
  · rintro rfl
    refine ⟨rest.dropWhile fun a => a.key ≠ "action", List.takeWhile_append_dropWhile.symm,
      fun a ha => by simpa using List.mem_takeWhile_imp ha, fun a ha => ?_⟩
    have hhead := List.head?_dropWhile_not (fun a : Attribute => a.key ≠ "action") rest
    rw [Option.mem_def.1 ha] at hhead
    simpa using hhead
  · rintro ⟨after, rfl, hbody, hafter⟩
    rw [untilAction, List.takeWhile_append_of_pos (by simpa using hbody)]
    cases after with
    | nil => exact List.append_nil body
    | cons a after => rw [← untilAction, untilAction_cons_of_action (hafter a rfl), List.append_nil]

theorem mem_reportsAfter {before : List Attribute} :
    s ∈ reportsAfter action before attributes ↔
      ∃ skipped rest, attributes = skipped ++ ⟨"action", action.name⟩ :: rest ∧
        s = ⟨before ++ skipped, untilAction rest⟩ := by
  induction attributes generalizing before with
  | nil => simp [reportsAfter]
  | cons a attributes ih =>
    have hcons : s ∈ reportsAfter action before (a :: attributes) ↔
        (a = ⟨"action", action.name⟩ ∧ s = ⟨before, untilAction attributes⟩) ∨
          s ∈ reportsAfter action (before ++ [a]) attributes := by
      rw [reportsAfter]
      split <;> simp [*]
    rw [hcons, ih]
    constructor
    · rintro (⟨rfl, rfl⟩ | ⟨skipped, rest, rfl, rfl⟩)
      · exact ⟨[], attributes, rfl, by rw [List.append_nil]⟩
      · exact ⟨a :: skipped, rest, rfl, by rw [List.append_assoc, List.singleton_append]⟩
    · rintro ⟨skipped, rest, hcut, rfl⟩
      cases skipped with
      | nil =>
        obtain ⟨rfl, rfl⟩ := List.cons.inj hcut
        exact .inl ⟨rfl, by rw [List.append_nil]⟩
      | cons b skipped =>
        obtain ⟨rfl, rfl⟩ := List.cons.inj hcut
        exact .inr ⟨skipped, rest, rfl, by rw [List.append_assoc, List.singleton_append]⟩

theorem mem_reports_iff : s ∈ reports action attributes ↔ s.StandsIn action attributes := by
  rw [reports, mem_reportsAfter]
  constructor
  · rintro ⟨before, rest, rfl, rfl⟩
    obtain ⟨after, hrest, hbody, hafter⟩ := untilAction_eq_iff.1 (rfl : untilAction rest = _)
    exact ⟨after, by rw [← hrest]; rfl, hbody, hafter⟩
  · rintro ⟨after, hcut, hbody, hafter⟩
    refine ⟨s.before, s.body ++ after, hcut, ?_⟩
    rw [List.nil_append, untilAction_eq_iff.2 ⟨after, rfl, hbody, hafter⟩]

theorem reportsAfter_pairwise (before : List Attribute) :
    (reportsAfter action before attributes).Pairwise
      fun s s' => s.before.length < s'.before.length := by
  induction attributes generalizing before with
  | nil => exact .nil
  | cons a attributes ih =>
    rw [reportsAfter]
    split
    · refine .cons (fun s hs => ?_) (ih _)
      obtain ⟨skipped, rest, -, rfl⟩ := mem_reportsAfter.1 hs
      simp only [List.length_append, List.length_cons]
      omega
    · exact ih _

def address (s : ActionReport) : String := (lastValue? s.before "_contract_address").getD ""

/-- A report tells a group: its contract, its last assets and its last share. -/
structure Tells (action : LiquidityAction) (s : ActionReport) (g : LiquidityGroup) : Prop where
  address : g.pairAddress = s.address
  assets : ∃ text, lastValue? s.body action.assetsKey = some text ∧
    readCoinPair? text = some (g.first, g.second)
  share : (lastValue? s.body action.shareKey).map Ranged.read? = g.share.map some

structure Readable (action : LiquidityAction) (s : ActionReport) : Prop where
  assets : ∃ text coins, lastValue? s.body action.assetsKey = some text ∧
    readCoinPair? text = some coins
  share : ∀ text, lastValue? s.body action.shareKey = some text →
    ∃ share : Amount, Ranged.read? text = some share

def draft (action : LiquidityAction) (s : ActionReport) : LiquidityDraft :=
  ⟨s.address, lastValue? s.body action.assetsKey, lastValue? s.body action.shareKey⟩

theorem group?_draft_eq_some_iff {g : LiquidityGroup} :
    (s.draft action).group? = some g ↔ s.Tells action g := by
  rw [LiquidityDraft.group?_eq_some_iff]
  constructor
  · rintro ⟨haddress, hassets, hshare⟩
    exact ⟨haddress, hassets, hshare⟩
  · rintro ⟨haddress, hassets, hshare⟩
    exact ⟨haddress, hassets, hshare⟩

theorem exists_tells_iff : (∃ g, s.Tells action g) ↔ s.Readable action := by
  constructor
  · rintro ⟨g, -, ⟨text, htext, hcoins⟩, hshare⟩
    refine ⟨⟨text, _, htext, hcoins⟩, fun text htext => ?_⟩
    rw [htext, Option.map_some] at hshare
    obtain ⟨share, -, hread⟩ := Option.map_eq_some_iff.1 hshare.symm
    exact ⟨share, hread.symm⟩
  · rintro ⟨⟨text, coins, htext, hcoins⟩, hshare⟩
    cases hlast : lastValue? s.body action.shareKey with
    | none =>
      exact ⟨⟨s.address, coins.1, coins.2, none⟩, rfl, ⟨text, htext, hcoins⟩,
        by rw [hlast]; rfl⟩
    | some raw =>
      obtain ⟨share, hread⟩ := hshare raw hlast
      exact ⟨⟨s.address, coins.1, coins.2, some share⟩, rfl, ⟨text, htext, hcoins⟩,
        by rw [hlast, Option.map_some, hread]; rfl⟩

end ActionReport

def LiquidityAction.keys (action : LiquidityAction) : List String :=
  ["_contract_address", "action", action.assetsKey, action.shareKey]

theorem Extraction.actionOf_keys_nodup (op : LiquidityOp) : (actionOf op).keys.Nodup := by
  cases op <;> decide

def LiquidityDraft.extend (action : LiquidityAction) (attributes : List Attribute)
    (d : LiquidityDraft) : LiquidityDraft where
  pairAddress := d.pairAddress
  assets := (lastValue? attributes action.assetsKey).or d.assets
  share := (lastValue? attributes action.shareKey).or d.share

theorem LiquidityDraft.extend_append (action : LiquidityAction) (xs ys : List Attribute)
    (d : LiquidityDraft) : d.extend action (xs ++ ys) = (d.extend action xs).extend action ys := by
  simp only [extend, lastValue?_append, Option.or_assoc]

theorem LiquidityDraft.extend_singleton (action : LiquidityAction) (a : Attribute) :
    extend action [a] = fun d => ⟨d.pairAddress,
      if a.key = action.assetsKey then some a.value else d.assets,
      if a.key = action.shareKey then some a.value else d.share⟩ := by
  funext d
  simp only [extend, lastValue?_singleton]
  congr 1 <;> split <;> rfl

namespace LiquidityScan

open ActionReport

variable {action : LiquidityAction} {s : LiquidityScan} {a : Attribute}

theorem step_of_action (h : a.key = "action") : step action s a =
    ⟨s.contract, if a.value = action.name then some ⟨s.contract, none, none⟩ else none,
      s.current.toList ++ s.done⟩ := by
  have hcontract : a.key ≠ "_contract_address" := by
    rw [h]
    decide
  rw [step, if_neg hcontract, if_pos h]

theorem step_of_ne_action (hkeys : action.keys.Nodup) (h : a.key ≠ "action") : step action s a =
    ⟨(lastValue? [a] "_contract_address").getD s.contract,
      s.current.map (LiquidityDraft.extend action [a]), s.done⟩ := by
  obtain ⟨contract, current, done⟩ := s
  simp only [LiquidityAction.keys, List.nodup_cons, List.mem_cons, List.not_mem_nil, or_false,
    not_or] at hkeys
  obtain ⟨⟨-, hassets, hshare⟩, -, hdistinct, -⟩ := hkeys
  rw [LiquidityDraft.extend_singleton, lastValue?_singleton, step]
  by_cases hcontract : a.key = "_contract_address"
  · rw [← hcontract] at hassets hshare
    simp only [if_pos hcontract, if_neg hassets, if_neg hshare, Option.map_id', Option.getD_some]
  · simp only [if_neg hcontract, if_neg h, Option.getD_none]
    by_cases hkey : a.key = action.assetsKey
    · rw [← hkey] at hdistinct
      simp only [if_pos hkey, if_neg hdistinct]
    · by_cases hkey' : a.key = action.shareKey
      · simp only [if_neg hkey, if_pos hkey']
      · simp only [if_neg hkey, if_neg hkey', Option.map_id']

theorem drafts_eq (s : LiquidityScan) : s.drafts = s.done.reverse ++ s.current.toList := by
  rw [drafts, List.reverse_append]
  cases s.current <;> rfl

theorem drafts_foldl (hkeys : action.keys.Nodup) (before attributes : List Attribute)
    (hs : s.contract = (lastValue? before "_contract_address").getD "") :
    (attributes.foldl (step action) s).drafts =
      s.done.reverse ++
        (s.current.map (LiquidityDraft.extend action (untilAction attributes))).toList ++
        (reportsAfter action before attributes).map (draft action) := by
  have hid : LiquidityDraft.extend action [] = id := rfl
  induction attributes generalizing before s with
  | nil =>
    rw [untilAction, List.takeWhile_nil, hid, Option.map_id_fun, reportsAfter, List.map_nil,
      List.append_nil]
    exact drafts_eq s
  | cons a rest ih =>
    rw [List.foldl_cons, reportsAfter]
    by_cases haction : a.key = "action"
    · have hwanted : a = ⟨"action", action.name⟩ ↔ a.value = action.name := by
        obtain ⟨key, value⟩ := a
        obtain rfl : key = "action" := haction
        simp
      have hopened : LiquidityDraft.extend action (untilAction rest) ⟨s.contract, none, none⟩ =
          draft action ⟨before, untilAction rest⟩ := by
        simp only [LiquidityDraft.extend, draft, address, hs, Option.or_none]
      rw [step_of_action haction, ih (before ++ [a])]
      · -- the open draft is finished as it is, and a new one may take its place
        rw [untilAction_cons_of_action haction, hid, Option.map_id_fun, id, ← drafts_eq s, drafts]
        simp only [hwanted]
        split
        · rw [Option.map_some, hopened, List.map_cons, List.append_assoc]
          rfl
        · rw [Option.map_none, Option.toList_none, List.append_nil]
      · have hother : a.key ≠ "_contract_address" := by
          rw [haction]
          decide
        rw [lastValue?_append, lastValue?_singleton, if_neg hother, hs]
        rfl
    · have hforeign : a ≠ ⟨"action", action.name⟩ := by
        rintro rfl
        exact haction rfl
      have hextended : LiquidityDraft.extend action (a :: untilAction rest) =
          LiquidityDraft.extend action (untilAction rest) ∘ LiquidityDraft.extend action [a] :=
        funext fun d => d.extend_append action [a] (untilAction rest)
      rw [step_of_ne_action hkeys haction, ih (before ++ [a]), if_neg hforeign,
        untilAction_cons_of_ne haction, hextended, ← Option.map_map]
      rw [lastValue?_append, hs]
      cases lastValue? [a] "_contract_address" <;> rfl

theorem isSome_current_foldl (hkeys : action.keys.Nodup) (attributes : List Attribute) :
    (attributes.foldl (step action) start).current.isSome ↔
      lastValue? attributes "action" = some action.name := by
  induction attributes using List.reverseRecOn with
  | nil => simp [start, lastValue?, SwapHop.column]
  | append_singleton attributes a ih =>
    rw [List.foldl_concat, lastValue?_append, lastValue?_singleton]
    by_cases haction : a.key = "action"
    · rw [step_of_action haction, if_pos haction, Option.some_or]
      by_cases hwanted : a.value = action.name <;> simp [hwanted]
    · rw [step_of_ne_action hkeys haction, if_neg haction, Option.none_or, Option.isSome_map, ih]

theorem foldl_outside (hkeys : action.keys.Nodup) (hs : s.current = none)
    {attributes : List Attribute}
    (h : ∀ a ∈ attributes, a.key ∉ ["_contract_address", "action"]) :
    attributes.foldl (step action) s = s := by
  induction attributes with
  | nil => rfl
  | cons a rest ih =>
    obtain ⟨ha, hrest⟩ := List.forall_mem_cons.1 h
    simp only [List.mem_cons, List.not_mem_nil, or_false, not_or] at ha
    have hstep : step action s a = s := by
      rw [step_of_ne_action hkeys ha.2, lastValue?_singleton, if_neg ha.1, hs]
      obtain ⟨contract, current, done⟩ := s
      obtain rfl : current = none := hs
      rfl
    rw [List.foldl_cons, hstep, ih hrest]

end LiquidityScan

namespace LogEntry

open ActionReport Extraction

variable {action : LiquidityAction} {e e' : LogEntry} {groups : List LiquidityGroup}

theorem liquidityGroups?_eq_some_iff (hkeys : action.keys.Nodup) :
    e.liquidityGroups? action = some groups ↔
      List.Forall₂ (Tells action) (reports action e.attributes) groups := by
  have hdrafts : (e.attributes.foldl (LiquidityScan.step action) .start).drafts =
      (reports action e.attributes).map (draft action) :=
    LiquidityScan.drafts_foldl hkeys [] e.attributes rfl
  rw [liquidityGroups?, hdrafts, Traverse.mapM_eq_some, List.map_map, ← List.forall₂_eq_eq_eq,
    List.forall₂_map_left_iff, List.forall₂_map_right_iff]
  simp only [Function.comp, group?_draft_eq_some_iff]

theorem exists_groups_iff (hkeys : action.keys.Nodup) :
    (∃ groups, e.liquidityGroups? action = some groups) ↔
      ∀ s ∈ reports action e.attributes, s.Readable action := by
  simp only [liquidityGroups?_eq_some_iff hkeys, ← exists_tells_iff]
  induction reports action e.attributes with
  | nil => simp
  | cons s later ih =>
    simp only [List.forall₂_cons_left_iff, List.forall_mem_cons, ← ih]
    constructor
    · rintro ⟨_, g, groups, hs, hlater, rfl⟩
      exact ⟨⟨g, hs⟩, groups, hlater⟩
    · rintro ⟨⟨g, hs⟩, groups, hlater⟩
      exact ⟨g :: groups, g, groups, hs, hlater, rfl⟩

theorem liquidityGroups?_of_unreadable (hkeys : action.keys.Nodup) {s : ActionReport}
    (hs : s ∈ reports action e.attributes) (hunreadable : ¬s.Readable action) :
    e.liquidityGroups? action = none := by
  cases h : e.liquidityGroups? action with
  | none => rfl
  | some groups => exact absurd ((exists_groups_iff hkeys).1 ⟨groups, h⟩ s hs) hunreadable

theorem liquidityGroups?_skip (hkeys : action.keys.Nodup) {xs mid ys : List Attribute}
    (hcut : Cut (xs ++ mid ++ ys) e.events) (hcut' : Cut (xs ++ ys) e'.events)
    (hxs : lastValue? xs "action" ≠ some action.name)
    (hmid : ∀ a ∈ mid, a.key ∉ ["_contract_address", "action"]) :
    e.liquidityGroups? action = e'.liquidityGroups? action := by
  have hclosed : (xs.foldl (LiquidityScan.step action) .start).current = none := by
    rw [← Option.not_isSome_iff_eq_none, LiquidityScan.isSome_current_foldl hkeys]
    exact hxs
  rw [liquidityGroups?, liquidityGroups?, hcut.attributes_eq, hcut'.attributes_eq,
    List.append_assoc, List.foldl_append, List.foldl_append, List.foldl_append,
    LiquidityScan.foldl_outside hkeys hclosed hmid]

/-- A change of liquidity has one group for each report of its action in the entry, in the
order of the log, with the contract named last before the report and the last assets and the
last share in it. It has them when every report can be read, and is malformed otherwise.
Attributes that stand in no report, and how all of them are cut into events, make no
difference. -/
theorem one_group_for_each_report (e : LogEntry) (op : LiquidityOp) :
    (∀ s, s ∈ reports (actionOf op) e.attributes ↔ StandsIn (actionOf op) e.attributes s) ∧
    (reports (actionOf op) e.attributes).Pairwise
      (fun s s' => s.before.length < s'.before.length) ∧
    (∀ groups, e.liquidityGroups? (actionOf op) = some groups ↔
      List.Forall₂ (Tells (actionOf op)) (reports (actionOf op) e.attributes) groups) ∧
    ((∃ groups, e.liquidityGroups? (actionOf op) = some groups) ↔
      ∀ s, StandsIn (actionOf op) e.attributes s → Readable (actionOf op) s) ∧
    (∀ s, StandsIn (actionOf op) e.attributes s → ¬Readable (actionOf op) s →
      ∀ r tx creator msg sent, ofLiquidity r tx creator msg op sent e =
        pure (.skip (.malformedLiquidityAttributes msg))) ∧
    ∀ (xs mid ys : List Attribute) (e' : LogEntry), Cut (xs ++ mid ++ ys) e.events →
      Cut (xs ++ ys) e'.events → lastValue? xs "action" ≠ some (actionOf op).name →
      (∀ a ∈ mid, a.key ∉ ["_contract_address", "action"]) →
      e.liquidityGroups? (actionOf op) = e'.liquidityGroups? (actionOf op) := by
  have hkeys := actionOf_keys_nodup op
  refine ⟨fun s => mem_reports_iff, reportsAfter_pairwise [],
    fun groups => liquidityGroups?_eq_some_iff hkeys, ?_, fun s hs hunreadable => ?_,
    fun xs mid ys e' hcut hcut' => liquidityGroups?_skip hkeys hcut hcut'⟩
  · rw [exists_groups_iff hkeys]
    exact forall_congr' fun s => imp_congr_left mem_reports_iff
  · intro r tx creator msg sent
    rw [ofLiquidity, liquidityGroups?_of_unreadable hkeys (mem_reports_iff.2 hs) hunreadable]

end LogEntry

namespace Provisions

def firstProvision : List Attribute :=
  [⟨"action", "swap"⟩, ⟨"_contract_address", "terra1pair"⟩, ⟨"share", "7"⟩,
    ⟨"action", "provide_liquidity"⟩, ⟨"assets", "1uluna, 2uusd"⟩, ⟨"share", "none"⟩,
    ⟨"_contract_address", "terra1token"⟩, ⟨"share", "44"⟩, ⟨"assets", "10uluna, 20uusd"⟩,
    ⟨"action", "mint"⟩, ⟨"share", "8"⟩]

def secondProvision : List Attribute :=
  [⟨"action", "provide_liquidity"⟩, ⟨"assets", "3uluna,4uusd"⟩]

def provisions : LogEntry :=
  ⟨none, [⟨"wasm", firstProvision.take 6⟩, ⟨"transfer", [⟨"share", "9"⟩]⟩,
    ⟨"wasm", firstProvision.drop 6 ++ [⟨"assets", "5uluna"⟩] ++ secondProvision⟩]⟩

end Provisions

open Provisions in
theorem LogEntry.provisions_grouped :
    Cut (firstProvision ++ [⟨"assets", "5uluna"⟩] ++ secondProvision) provisions.events ∧
    lastValue? firstProvision "action" = some "mint" ∧
    provisions.liquidityGroups? .provide =
      some [⟨"terra1pair", (10, "uluna"), (20, "uusd"), some 44⟩,
        ⟨"terra1token", (3, "uluna"), (4, "uusd"), none⟩] := by
  have hcut :
      Cut (firstProvision ++ [⟨"assets", "5uluna"⟩] ++ secondProvision) provisions.events :=
    .piece (firstProvision.take 6) (.other (by decide)
      (.piece (firstProvision.drop 6 ++ [⟨"assets", "5uluna"⟩] ++ secondProvision) .nil))
  have hsame := (LogEntry.one_group_for_each_report provisions .provide).2.2.2.2.2
    firstProvision [⟨"assets", "5uluna"⟩] secondProvision
    ⟨none, [⟨"wasm", firstProvision ++ secondProvision⟩]⟩ hcut
    (.piece (firstProvision ++ secondProvision) .nil) (by decide) (by decide)
  refine ⟨hcut, rfl, hsame.trans ?_⟩
  decide +kernel

end PoolLedger
