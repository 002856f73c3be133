import PoolLedger.Ascending
import PoolLedger.Base64
import PoolLedger.Instant
import PoolLedger.Node.Basic
import PoolLedger.Segment

/-! Fetching a segment from a node: its latest height, then the transactions of
each window page by page, then the times of their blocks. -/

namespace PoolLedger.Node

def latestHeightText? (j : Json) : Option String := do
  let status ← j.fields? ["sync_info"]
  let info ← status.required 0 (Json.fields? ["latest_block_height"])
  info.required 0 Json.text?

def Client.latestHeight (c : Client) : Calling (Except IndexerError Height) := do
  return (← c.get "status" [] latestHeightText?).bind readHeight

structure FoundTransaction where
  hash : String
  height : String
  index : Index
  code : Index
  log : String
  bytes : String

structure SearchPage where
  found : List FoundTransaction
  totalCount : String

namespace FoundTransaction

def result? (j : Json) : Option (Index × String) := do
  let f ← j.fields? ["code", "log"]
  return (← f.default 0 Json.ranged? 0, ← f.default 1 Json.text? "")

def ofJson? (j : Json) : Option FoundTransaction := do
  let f ← j.fields? ["hash", "height", "index", "tx_result", "tx"]
  let (code, log) ← f.required 3 result?
  return ⟨← f.required 0 Json.text?, ← f.required 1 Json.text?, ← f.default 2 Json.ranged? 0, code,
    log, ← f.required 4 Json.text?⟩

def toTransaction (t : FoundTransaction) : Except IndexerError Transaction := do
  let height ← readHeight t.height
  match Base64.decodeText? t.bytes with
  | some bytes => return ⟨t.hash, height, t.index, t.code, t.log, bytes, 0⟩
  | none => .error (.chain "tx base64")

end FoundTransaction

namespace SearchPage

def ofJson? (j : Json) : Option SearchPage := do
  let f ← j.fields? ["txs", "total_count"]
  return ⟨← f.default 0 (Json.list? FoundTransaction.ofJson?) [], ← f.required 1 Json.text?⟩

def read (p : SearchPage) : Except IndexerError (Height × List Transaction) := do
  let total ← readHeight p.totalCount
  return (total, ← p.found.mapM FoundTransaction.toTransaction)

end SearchPage

def pageSize : Nat := 100

def searchParams (w : Window) (page : Index) : List (String × String) := [
  ("query", "\"tx.height>=" ++ toString w.first ++ " AND tx.height<=" ++ toString w.last ++ "\""),
  ("page", toString page),
  ("per_page", toString pageSize),
  ("order_by", "\"asc\"")]

def Client.searchPage (c : Client) (w : Window) (page : Index) :
    Calling (Except IndexerError (Height × List Transaction)) := do
  return (← c.get "tx_search" (searchParams w page) SearchPage.ofJson?).bind SearchPage.read

/-- The pages of a window from `page` on, after those that gave `collected`.
The last one is empty or brings the transactions to the count it tells. Each
page before it adds one, and a count has 64 bits, so there is a last one. -/
def Client.searchFrom (c : Client) (w : Window) (page : Index) (collected : List Transaction) :
    Calling (Except IndexerError (List Transaction)) := fun t before =>
  match c.searchPage w page t before with
  | (.error e, sent) => (.error e, sent)
  | (.ok (total, found), sent) =>
    if h : found.length = 0 ∨ total.val ≤ (collected ++ found).length then
      (.ok (collected ++ found), sent)
    else
      have := h
      c.searchFrom w (page.satAdd 1) (collected ++ found) t sent
termination_by 18446744073709551615 - collected.length
decreasing_by
  have bound := total.le_hi
  simp only [List.length_append] at this ⊢
  omega

def Client.search (c : Client) (w : Window) : Calling (Except IndexerError (List Transaction)) :=
  c.searchFrom w 1 []

def blockSpan : Height := 20

abbrev BlockTimes := List (Height × Timestamp)

def BlockTimes.find? (times : BlockTimes) (h : Height) : Option Timestamp :=
  (List.find? (fun e => e.1 = h) times).map Prod.snd

def header? (j : Json) : Option (String × String) := do
  let block ← j.fields? ["header"]
  let f ← block.required 0 (Json.fields? ["height", "time"])
  return (← f.required 0 Json.text?, ← f.required 1 Json.text?)

def headers? (j : Json) : Option (List (String × String)) := do
  let f ← j.fields? ["block_metas"]
  f.default 0 (Json.list? header?) []

def addTime (times : BlockTimes) (header : String × String) : Except IndexerError BlockTimes :=
  match (Instant.read? header.2).bind fun n => (Ranged.ofInt? n : Option Timestamp) with
  | none => .error (.chain "block time")
  | some t => (readHeight header.1).map fun h => (h, t) :: times

def Client.blockTimesFrom (c : Client) (times : BlockTimes) :
    List Height → Calling (Except IndexerError BlockTimes)
  | [] => return .ok times
  | h :: rest => do
    if (times.find? h).isSome then c.blockTimesFrom times rest
    else
      let last := h.satAdd (blockSpan.satSub 1)
      let params := [("minHeight", toString h), ("maxHeight", toString last)]
      match (← c.get "blockchain" params headers?).bind fun hs => hs.foldlM addTime times with
      | .error e => return .error e
      | .ok times =>
        if (times.find? h).isSome then c.blockTimesFrom times rest
        else return .error (.chain ("no block meta for height " ++ toString h))

def Client.blockTimes (c : Client) (heights : List Height) :
    Calling (Except IndexerError BlockTimes) :=
  c.blockTimesFrom [] (Ascending.ofList (fun a b : Height => a < b) heights)

structure Source where
  client : Client
  limit : Height
  windowCount : Height

def Source.of (client : Client) (limit windowCount : Height) : Source :=
  ⟨client, Ranged.larger 1 limit, Ranged.larger 1 windowCount⟩

def inBlockOrder (txs : List Transaction) : List Transaction :=
  txs.mergeSort fun a b => a.height < b.height || (a.height = b.height && a.index ≤ b.index)

def withTime (times : BlockTimes) (tx : Transaction) : Transaction :=
  { tx with timestamp := (times.find? tx.height).getD 0 }

/-- The segment that starts at a height. Every window is searched, also when
one of them fails. -/
def Source.fetch (s : Source) (offset : Height) : Calling (Except IndexerError Segment) := do
  match ← s.client.latestHeight with
  | .error e => return .error e
  | .ok latest =>
    let ws := windows offset latest s.limit s.windowCount.toNat
    match ws.getLast? with
    | none => return .ok ⟨[], offset⟩
    | some w =>
      let results ← ws.mapM s.client.search
      match results.mapM id with
      | .error e => return .error e
      | .ok found =>
        let txs := found.flatten
        match ← s.client.blockTimes (txs.map Transaction.height) with
        | .error e => return .error e
        | .ok times => return .ok ⟨inBlockOrder (txs.map (withTime times)), w.last.satAdd 1⟩

end PoolLedger.Node
