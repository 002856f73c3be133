import PoolLedger.Json.Shape
import PoolLedger.Text.Blank

/-! The log of a transaction: for each message the events it set off, each a
list of attributes. Swaps and changes of liquidity are read off the attributes
of contract events. -/

namespace PoolLedger

structure Attribute where
  key : String
  value : String
deriving DecidableEq

structure LogEvent where
  kind : String
  attributes : List Attribute
deriving DecidableEq

structure LogEntry where
  msgIndex : Option Index
  events : List LogEvent
deriving DecidableEq

namespace Attribute

def ofJson? (j : Json) : Option Attribute := do
  let f ← j.fields? ["key", "value"]
  return ⟨← f.required 0 Json.text?, ← f.default 1 Json.text? ""⟩

end Attribute

namespace LogEvent

def ofJson? (j : Json) : Option LogEvent := do
  let f ← j.fields? ["type", "attributes"]
  return ⟨← f.required 0 Json.text?, ← f.default 1 (Json.list? Attribute.ofJson?) []⟩

end LogEvent

namespace LogEntry

def ofJson? (j : Json) : Option LogEntry := do
  let f ← j.fields? ["msg_index", "events"]
  return ⟨← f.default 0 (Json.nullable Json.ranged?) none,
    ← f.default 1 (Json.list? LogEvent.ofJson?) []⟩

def attributes (e : LogEntry) : List Attribute :=
  (e.events.filter fun ev => ev.kind = "wasm").flatMap LogEvent.attributes

end LogEntry

namespace Log

def read? (raw : String) : Option (List LogEntry) :=
  if (Text.trim raw.toList).isEmpty then some []
  else (Json.ofString? raw).bind (Json.list? LogEntry.ofJson?)

/-- Entries under the message each belongs to: the one it names, or else its
own place in the log. -/
def indexedFrom (place : Nat) : List LogEntry → List (Nat × LogEntry)
  | [] => []
  | e :: rest => ((e.msgIndex.map Ranged.toNat).getD place, e) :: indexedFrom (place + 1) rest

def indexed (log : List LogEntry) : List (Nat × LogEntry) := indexedFrom 0 log

def entryOf? (log : List LogEntry) (msg : Nat) : Option LogEntry :=
  ((indexed log).reverse.find? fun p => p.1 = msg).map Prod.snd

end Log

namespace Text

def pieces (sep : Char) : List Char → List (List Char)
  | [] => [[]]
  | c :: cs =>
    match pieces sep cs with
    | [] => [[c]]
    | p :: ps => if c = sep then [] :: p :: ps else (c :: p) :: ps

end Text

def readCoinChars? (cs : List Char) : Option (Amount × String) :=
  let cs := Text.trim cs
  match cs.dropWhile Char.isDigit with
  | [] => none
  | denom => (Ranged.readChars? (cs.takeWhile Char.isDigit)).map (·, String.ofList denom)

def readCoin? (s : String) : Option (Amount × String) := readCoinChars? s.toList

def readCoinPair? (s : String) : Option ((Amount × String) × (Amount × String)) :=
  match Text.pieces ',' s.toList with
  | [first, second] => do return (← readCoinChars? first, ← readCoinChars? second)
  | _ => none

structure SwapHop where
  offerAsset : String
  askAsset : String
  offerAmount : Amount
  returnAmount : Amount
  taxAmount : Amount
  commissionAmount : Amount
  spreadAmount : Amount
deriving DecidableEq

inductive HopFault
  | missing
  | malformed
deriving DecidableEq

namespace SwapHop

def keys : List String := ["offer_asset", "ask_asset", "offer_amount", "return_amount",
  "tax_amount", "commission_amount", "spread_amount"]

def column (attributes : List Attribute) (key : String) : List String :=
  (attributes.filter fun a => a.key = key).map Attribute.value

def at? (attributes : List Attribute) (i : Nat) : Option SwapHop := do
  let cell := fun key => (column attributes key)[i]?
  let amount := fun key => (cell key).bind Ranged.read?
  return ⟨← cell "offer_asset", ← cell "ask_asset", ← amount "offer_amount",
    ← amount "return_amount", ← amount "tax_amount", ← amount "commission_amount",
    ← amount "spread_amount"⟩

end SwapHop

/-- The hops of an entry: every key must occur equally often. -/
def LogEntry.swapHops (e : LogEntry) : Except HopFault (List SwapHop) :=
  let attributes := e.attributes
  let hops := (SwapHop.column attributes "offer_asset").length
  if SwapHop.keys.any fun k => (SwapHop.column attributes k).length ≠ hops then .error .malformed
  else if hops = 0 then .error .missing
  else
    match (List.range hops).mapM (SwapHop.at? attributes) with
    | some hs => .ok hs
    | none => .error .malformed

structure LiquidityGroup where
  pairAddress : String
  first : Amount × String
  second : Amount × String
  share : Option Amount
deriving DecidableEq

structure LiquidityAction where
  name : String
  assetsKey : String
  shareKey : String
deriving DecidableEq

namespace LiquidityAction

def provide : LiquidityAction := ⟨"provide_liquidity", "assets", "share"⟩
def withdraw : LiquidityAction := ⟨"withdraw_liquidity", "refund_assets", "withdrawn_share"⟩

def named (name : String) : LiquidityAction :=
  if name = withdraw.name then withdraw else ⟨name, provide.assetsKey, provide.shareKey⟩

end LiquidityAction

structure LiquidityDraft where
  pairAddress : String
  assets : Option String
  share : Option String

structure LiquidityScan where
  contract : String
  current : Option LiquidityDraft
  done : List LiquidityDraft

namespace LiquidityScan

def start : LiquidityScan := ⟨"", none, []⟩

def drafts (s : LiquidityScan) : List LiquidityDraft := (s.current.toList ++ s.done).reverse

/-- The name of an action ends the draft before it, and begins one if it is
the wanted action. -/
def step (action : LiquidityAction) (s : LiquidityScan) (a : Attribute) : LiquidityScan :=
  if a.key = "_contract_address" then { s with contract := a.value }
  else if a.key = "action" then
    let next := if a.value = action.name then some ⟨s.contract, none, none⟩ else none
    ⟨s.contract, next, s.current.toList ++ s.done⟩
  else if a.key = action.assetsKey then
    { s with current := s.current.map fun d => { d with assets := some a.value } }
  else if a.key = action.shareKey then
    { s with current := s.current.map fun d => { d with share := some a.value } }
  else s

end LiquidityScan

def LiquidityDraft.group? (d : LiquidityDraft) : Option LiquidityGroup := do
  let (first, second) ← readCoinPair? (← d.assets)
  let share ←
    match d.share with
    | none => some none
    | some raw => (Ranged.read? raw).map some
  return ⟨d.pairAddress, first, second, share⟩

def LogEntry.liquidityGroups? (e : LogEntry) (action : LiquidityAction) :
    Option (List LiquidityGroup) :=
  (e.attributes.foldl (LiquidityScan.step action) .start).drafts.mapM LiquidityDraft.group?

end PoolLedger
