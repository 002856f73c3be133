import PoolLedger.Json.Reader
import PoolLedger.Store.Reading
import PoolLedger.Web.Target

/-! The web interface. Every answer is read off the store and the registry.
Amounts are written as texts, so that no reader rounds them. -/

namespace PoolLedger.Web

structure Response where
  status : Nat
  body : Option Json

structure Service where
  registry : Registry
  store : Store
  now : Option String

def number {lo hi : Int} (n : Ranged lo hi) : Json := .int n.val
def digits {lo hi : Int} (n : Ranged lo hi) : Json := .text (toString n)

def pairView (p : Pair) : Json := .object [
  ("pair_addr", .text p.address), ("liquidity_addr", .text p.lpToken), ("symbol", .text p.symbol),
  ("pair_key", .text p.key), ("base_denom", .text p.base.denom),
  ("quote_denom", .text p.quote.denom), ("base_decimals", number p.baseDecimals),
  ("quote_decimals", number p.quoteDecimals), ("commission_rate", .text p.commissionRate)]

def snapshotView (s : Snapshot) : Json := .object [
  ("pair_addr", .text s.pairAddress), ("offer_pool_amount", digits s.base),
  ("ask_pool_amount", digits s.quote), ("total_share", digits s.totalShare),
  ("height", number s.height), ("timestamp", number s.timestamp)]

def pointView (p : LiquidityPoint) : Json := .object [
  ("timestamp", number p.timestamp), ("offer_pool_amount", digits p.base),
  ("ask_pool_amount", digits p.quote), ("total_share", digits p.totalShare),
  ("height", number p.height)]

def candleView (c : Candle) : Json := .object [
  ("timestamp", number c.timestamp), ("open", .real c.opening), ("high", .real c.high),
  ("low", .real c.low), ("close", .real c.close), ("volume", digits c.volume),
  ("swap_count", number c.swapCount)]

def volumeView (key : String) (lo hi : Timestamp) (v : Volume) : Json := .object [
  ("pair_key", .text key), ("from", number lo), ("to", number hi),
  ("base_volume", digits v.base), ("quote_volume", digits v.quote), ("swaps", number v.swaps)]

/-- Stored rewards that are no JSON are shown as null. -/
def aprView (r : AprRecord) : Json := .object [
  ("pair_addr", .text r.pairAddress), ("height", number r.height), ("apr", .real r.apr),
  ("total_supply", digits r.totalSupply), ("total_bond_amount", digits r.totalBond),
  ("reward_per_sec", (Json.parse? r.rewards).getD .null)]

def errorView (e : IndexerError) : Json :=
  .object [("error", .object [("code", .int e.code), ("message", .text e.message)])]

def failure (e : IndexerError) : Response := ⟨e.status, some (errorView e)⟩

def respond : Except IndexerError Json → Response
  | .ok body => ⟨200, some body⟩
  | .error e => failure e

def integerField? (fields : List (Option String × Option String)) (name : String) :
    Option (Option Timestamp) :=
  match fields.filter fun f => f.1 = some name with
  | [] => some none
  | [(_, some value)] => (Ranged.read? value).map some
  | _ => none

structure Span where
  lo : Timestamp
  hi : Timestamp
  width : Timestamp

def Span.ofFields? (withWidth : Bool) (fields : List (Option String × Option String)) :
    Option Span := do
  let lo ← integerField? fields "from"
  let hi ← integerField? fields "to"
  let width ← if withWidth then integerField? fields "bucket" else some none
  return ⟨lo.getD 0, hi.getD 9223372036854775807, width.getD 3600⟩

def Span.check (s : Span) : Except IndexerError Unit :=
  if s.hi < s.lo then
    .error (.invalidRequest ("from (" ++ toString s.lo ++ ") is after to (" ++ toString s.hi ++ ")"))
  else .ok ()

inductive Report
  | reserves
  | liquidity
  | candles
  | volume
  | apr
deriving DecidableEq

inductive Route
  | health
  | status
  | pools
  | report (address : List Char) (r : Report)

def Route.ofSegments? : List String → Option Route
  | ["", "health"] => some .health
  | ["", "api", "v1", "status"] => some .status
  | ["", "api", "v1", "pools"] => some .pools
  | ["", "api", "v1", "pools", a, "reserves", "latest"] => some (.report a.toList .reserves)
  | ["", "api", "v1", "pools", a, "liquidity"] => some (.report a.toList .liquidity)
  | ["", "api", "v1", "pools", a, "candles"] => some (.report a.toList .candles)
  | ["", "api", "v1", "pools", a, "volume"] => some (.report a.toList .volume)
  | ["", "api", "v1", "pools", a, "apr"] => some (.report a.toList .apr)
  | _ => none

namespace Service

def pair (s : Service) (address : String) : Except IndexerError Pair :=
  match s.registry.byAddress? address with
  | some p => .ok p
  | none => .error (.notFound ("pair " ++ address))

def found {α : Type} (what : String) : Option α → Except IndexerError α
  | some a => .ok a
  | none => .error (.notFound what)

def status (s : Service) : Except IndexerError Json := do
  let checkpoint ← s.store.loadCheckpoint
  return .object [("checkpoint", (checkpoint.map number).getD .null),
    ("pairs", .int s.registry.pairs.length)]

def reserves (s : Service) (address : String) : Except IndexerError Json := do
  let _ ← s.pair address
  let snapshot ← s.store.latestReserve address
  return snapshotView (← found ("reserves of " ++ address) snapshot)

def liquidity (s : Service) (address : String) (span : Span) : Except Fault Json := do
  let _ ← Fault.ofExcept (s.pair address)
  Fault.ofExcept span.check
  let points ← s.store.liquiditySeries address span.lo span.hi span.width
  return .list (points.map pointView)

def candles (s : Service) (address : String) (span : Span) : Except IndexerError Json := do
  let p ← s.pair address
  span.check
  return .list ((← s.store.candlesBetween p.key span.lo span.hi).map candleView)

def volume (s : Service) (address : String) (span : Span) : Except IndexerError Json := do
  let p ← s.pair address
  span.check
  return volumeView p.key span.lo span.hi (← s.store.volume p.key span.lo span.hi)

def apr (s : Service) (address : String) : Except IndexerError Json := do
  let _ ← s.pair address
  let record ← s.store.latestApr address
  return aprView (← found ("apr of " ++ address) record)

def report (s : Service) (address : String) (r : Report)
    (fields : List (Option String × Option String)) : Option (Except Fault Json) :=
  match r with
  | .reserves => some (Fault.ofExcept (s.reserves address))
  | .apr => some (Fault.ofExcept (s.apr address))
  | .liquidity => (Span.ofFields? true fields).map (s.liquidity address)
  | .candles => (Span.ofFields? false fields).map fun span => Fault.ofExcept (s.candles address span)
  | .volume => (Span.ofFields? false fields).map fun span => Fault.ofExcept (s.volume address span)

def answer (s : Service) (route : Route) (fields : List (Option String × Option String)) :
    Except Fault Response :=
  match route with
  | .health =>
    .ok ⟨200, some (.object [("status", .text "healthy"), ("timestamp", .ofTextOption s.now),
      ("version", .text "0.1.0")])⟩
  | .status => .ok (respond s.status)
  | .pools => .ok ⟨200, some (.list (s.registry.pairs.map pairView))⟩
  | .report raw r =>
    match decodeSegment? raw with
    | none => .ok ⟨400, none⟩
    | some address =>
      match s.report address r fields with
      | none => .ok ⟨400, none⟩
      | some (.ok body) => .ok ⟨200, some body⟩
      | some (.error (.failed e)) => .ok (failure e)
      | some (.error .overflow) => .error .overflow

/-- The answer to a request. The head of a page is its status alone. -/
def handle (s : Service) (method uri : String) : Except Fault Response :=
  let target := Target.ofString uri
  match Route.ofSegments? (target.segments.map String.ofList) with
  | none => .ok ⟨404, none⟩
  | some route =>
    if method = "GET" then s.answer route target.fields
    else if method = "HEAD" then (s.answer route target.fields).map fun r => ⟨r.status, none⟩
    else .ok ⟨405, none⟩

end Service

end PoolLedger.Web
