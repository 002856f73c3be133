import Mathlib.Data.List.TakeWhile
import PoolLedger.Proofs.Extraction
import PoolLedger.Proofs.Json.RoundTrip
import PoolLedger.Sync

/-! Transactions with written logs. Any events can be written as the text of a log and are read
back from it, so that a transaction is given by its messages and by what contracts report. -/

namespace PoolLedger

def Attribute.toJson (a : Attribute) : Json := .list [.text a.key, .text a.value]

def LogEvent.toJson (e : LogEvent) : Json :=
  .list [.text e.kind, .list (e.attributes.map Attribute.toJson)]

theorem LogEvent.ofJson?_toJson (e : LogEvent) : ofJson? e.toJson = some e := by
  have hattributes : (e.attributes.map Attribute.toJson).mapM Attribute.ofJson? =
      some e.attributes := by
    rw [Traverse.mapM_eq_some, List.map_map]
    rfl
  change (Json.list? Attribute.ofJson? (.list (e.attributes.map Attribute.toJson))).bind
    (fun attributes => some (LogEvent.mk e.kind attributes)) = some e
  rw [Json.list?, hattributes]
  rfl

namespace Log

def ofEvents (events : List LogEvent) : String :=
  (Json.list [.object [("events", .list (events.map LogEvent.toJson))]]).compact

theorem plainItems_toJson (events : List LogEvent) :
    Json.plainItems (events.map LogEvent.toJson) = true := by
  have hattributes (attributes : List Attribute) :
      Json.plainItems (attributes.map Attribute.toJson) = true := by
    induction attributes with
    | nil => rfl
    | cons a attributes ih => exact ih
  induction events with
  | nil => rfl
  | cons e events ih =>
    rw [List.map_cons, Json.plainItems, ih, LogEvent.toJson]
    simp [Json.plain, Json.plainItems, hattributes]

theorem read?_ofEvents (events : List LogEvent) : read? (ofEvents events) = some [⟨none, events⟩] := by
  have hevents : (events.map LogEvent.toJson).mapM LogEvent.ofJson? = some events := by
    rw [Traverse.mapM_eq_some, List.map_map]
    exact List.map_congr_left fun e _ => e.ofJson?_toJson
  have hentry : LogEntry.ofJson? (.object [("events", .list (events.map LogEvent.toJson))]) =
      some ⟨none, events⟩ := by
    change (Json.list? LogEvent.ofJson? (.list (events.map LogEvent.toJson))).bind
      (fun events => some (LogEntry.mk none events)) = some ⟨none, events⟩
    rw [Json.list?, hevents]
    rfl
  rw [read?, if_neg, ofEvents, Json.ofString?_compact]
  · change ([.object [("events", .list (events.map LogEvent.toJson))]].mapM LogEntry.ofJson?) = _
    rw [List.mapM_cons, hentry]
    rfl
  · simp [Json.plain, Json.plainItems, Json.plainMembers, plainItems_toJson]
  · rw [ofEvents, Json.compact, String.toList_ofList, Json.chars, Text.trim,
      List.dropWhile_cons_of_neg (by decide), Text.dropBlankEnd, List.isEmpty_iff,
      List.reverse_eq_nil_iff, List.dropWhile_eq_nil_iff]
    intro hblank
    exact absurd (hblank '[' (List.mem_reverse.2 List.mem_cons_self)) (by decide)

end Log

theorem Extraction.value_of_written {k : Querier} {r : Registry} {tx : Transaction} {e : Execution}
    {reports : List LogEvent} (hcode : tx.code = 0) (hread : readExecutions tx.bytes = .ok [(0, e)])
    (hlog : tx.rawLog = Log.ofEvents reports) :
    Asking.value k (ofTransaction r tx) =
      .concat [Asking.value k (ofMessage r tx (some ⟨none, reports⟩) 0 e)] := by
  rw [ofTransaction, if_neg fun h => h hcode]
  simp only [hread, hlog, Log.read?_ofEvents]
  rfl

theorem Extraction.ofAll_written {k : Querier} {r : Registry} {tx : Transaction} {e : Execution}
    {reports : List LogEvent} (hcode : tx.code = 0) (hread : readExecutions tx.bytes = .ok [(0, e)])
    (hlog : tx.rawLog = Log.ofEvents reports) :
    ofAll r k [tx] = .concat [.concat [Asking.value k (ofMessage r tx (some ⟨none, reports⟩) 0 e)]] := by
  rw [ofAll, List.map_singleton, value_of_written hcode hread hlog]

namespace Sample

def pair : Pair :=
  { Pair.unlisted (.native "orai") (.token "usdt") "ORAI" "USDT" with
    address := "pool", lpToken := "lp" }

def indexer : Indexer := ⟨.ofPairs [pair], 100, 60⟩

def querier : Querier := .fixed fun q =>
  match q with
  | .pool _ _ => .ok ⟨[⟨.native "orai", 10⟩, ⟨.token "usdt", 20⟩], 5⟩
  | .totalSupply _ | .totalBond _ | .rewards _ | .listing _ _ _ => .error (.query "unknown")

theorem steady : querier.Steady := Querier.fixed_steady _

def report (contract : String) (attributes : List (String × String)) : LogEvent :=
  ⟨"wasm", ⟨"_contract_address", contract⟩ :: attributes.map fun a => ⟨a.1, a.2⟩⟩

def sale (contract amount : String) : LogEvent :=
  report contract [("offer_asset", "orai"), ("ask_asset", "usdt"), ("offer_amount", amount),
    ("return_amount", "2"), ("tax_amount", "0"), ("commission_amount", "0"), ("spread_amount", "0")]

def provision (contract assets : String) : LogEvent :=
  report contract [("action", "provide_liquidity"), ("assets", assets), ("share", "1")]

def execution (message : String) : Execution :=
  ⟨"trader", "router", ("\x7b\"" ++ message ++ "\":\x7b\x7d\x7d").toUTF8.toList, []⟩

def reporting (message : String) (reports : List LogEvent) : Transaction where
  hash := "A"
  height := 110
  index := 0
  code := 0
  rawLog := Log.ofEvents reports
  bytes := writeExecutions [execution message]
  timestamp := 90

theorem readExecutions_execution : ∀ message ∈ ["swap", "provide_liquidity"],
    readExecutions (writeExecutions [execution message]) = .ok [(0, execution message)] := by
  decide +kernel

theorem value_reporting {k : Querier} {r : Registry} {message : String} {reports : List LogEvent}
    (h : message ∈ ["swap", "provide_liquidity"]) :
    Asking.value k (Extraction.ofTransaction r (reporting message reports)) =
      .concat [Asking.value k (Extraction.ofMessage r (reporting message reports)
        (some ⟨none, reports⟩) 0 (execution message))] :=
  Extraction.value_of_written rfl (readExecutions_execution message h) rfl

abbrev provided : Transaction := reporting "provide_liquidity" [provision "pool" "1orai,2usdt"]

def firstSwap : Transaction := reporting "swap" [sale "pool" "1"]

def secondSwap : Transaction := { firstSwap with height := 130, timestamp := 150 }

def sold (msg : Nat) : Swap :=
  Extraction.swapOf firstSwap "trader" msg ⟨"orai", "usdt", 1, 2, 0, 0, 0⟩ pair .sell

end Sample

end PoolLedger
