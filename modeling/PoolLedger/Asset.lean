import PoolLedger.Json.Shape
import PoolLedger.Json.Writer

/-! Assets: coins of the chain and tokens of a contract, amounts of them, and
what pair and factory contracts report about their assets. Amounts travel as
JSON texts. -/

namespace PoolLedger

inductive AssetId
  | native (denom : String)
  | token (contract : String)
deriving DecidableEq

structure Asset where
  id : AssetId
  amount : Amount
deriving DecidableEq

structure PoolReport where
  assets : List Asset
  totalShare : Amount
deriving DecidableEq

structure Listing where
  assets : List AssetId
  pairAddress : String
  lpToken : String
  oracle : Option String
  commissionRate : Option String
deriving DecidableEq

namespace AssetId

def denom : AssetId → String
  | .native d => d
  | .token c => c

def isNative : AssetId → Bool
  | .native _ => true
  | .token _ => false

def ofJson? (j : Json) : Option AssetId :=
  match j.variant? with
  | some ("native_token", content) => do
    let f ← content.fields? ["denom"]
    return .native (← f.required 0 Json.text?)
  | some ("token", content) => do
    let f ← content.fields? ["contract_addr"]
    return .token (← f.required 0 Json.text?)
  | _ => none

def toJson : AssetId → Json
  | .native d => .object [("native_token", .object [("denom", .text d)])]
  | .token c => .object [("token", .object [("contract_addr", .text c)])]

end AssetId

def Amount.toJson (a : Amount) : Json := .text (toString a)

namespace Asset

def denom (a : Asset) : String := a.id.denom

def ofJson? (j : Json) : Option Asset := do
  let f ← j.fields? ["info", "amount"]
  return ⟨← f.required 0 AssetId.ofJson?, ← f.required 1 Json.amount?⟩

def toJson (a : Asset) : Json := .object [("info", a.id.toJson), ("amount", a.amount.toJson)]

def writeList (xs : List Asset) : String := (Json.list (xs.map toJson)).compact

def readList? (s : String) : Option (List Asset) :=
  (Json.ofString? s).bind (Json.list? ofJson?)

end Asset

namespace PoolReport

def amountOf (p : PoolReport) (denom : String) : Amount :=
  match p.assets.find? fun a => a.denom = denom with
  | some a => a.amount
  | none => 0

def ofJson? (j : Json) : Option PoolReport := do
  let f ← j.fields? ["assets", "total_share"]
  return ⟨← f.required 0 (Json.list? Asset.ofJson?), ← f.required 1 Json.amount?⟩

def toJson (p : PoolReport) : Json :=
  .object [("assets", .list (p.assets.map Asset.toJson)), ("total_share", p.totalShare.toJson)]

end PoolReport

def Json.ofTextOption : Option String → Json
  | some s => .text s
  | none => .null

namespace Listing

def ofJson? (j : Json) : Option Listing := do
  let f ← j.fields? ["asset_infos", "contract_addr", "liquidity_token", "oracle_addr",
    "commission_rate"]
  return ⟨← f.required 0 (Json.list? AssetId.ofJson?), ← f.required 1 Json.text?,
    ← f.required 2 Json.text?, ← f.default 3 (Json.nullable Json.text?) none,
    ← f.default 4 (Json.nullable Json.text?) none⟩

def toJson (l : Listing) : Json :=
  .object [("asset_infos", .list (l.assets.map AssetId.toJson)),
    ("contract_addr", .text l.pairAddress), ("liquidity_token", .text l.lpToken),
    ("oracle_addr", .ofTextOption l.oracle), ("commission_rate", .ofTextOption l.commissionRate)]

end Listing

end PoolLedger
