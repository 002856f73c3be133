import PoolLedger.Base64
import PoolLedger.Node.Basic
import PoolLedger.Query

/-! Questions to contracts through a node. The question is JSON inside a wire
message, the answer likewise. -/

namespace PoolLedger.Node

def hexText (b : Wire.Bytes) : String :=
  String.ofList (b.flatMap fun x => [Nat.digitChar (x.toNat / 16), Nat.digitChar (x.toNat % 16)])

structure QueryResponse where
  code : Index
  log : String
  value : String

def QueryResponse.ofJson? (j : Json) : Option QueryResponse := do
  let outer ← j.fields? ["response"]
  let f ← outer.required 0 (Json.fields? ["code", "log", "value"])
  let value ← f.default 2 (Json.nullable Json.text?) none
  return ⟨← f.default 0 Json.ranged? 0, ← f.default 1 Json.text? "", value.getD ""⟩

def QueryResponse.read (r : QueryResponse) : Except IndexerError Wire.Bytes :=
  if r.code ≠ 0 then .error (.query r.log)
  else
    match Base64.decodeText? r.value with
    | some b => .ok b
    | none => .error (.query "abci value")

def smartQueryPath : String := "/cosmwasm.wasm.v1.Query/SmartContractState"

def smartRequest (contract : String) (question : Json) : Wire.Bytes :=
  Wire.writeTextField 1 contract ++ Wire.writeBytesField 2 (Wire.utf8 question.compact)

def readSmart {α : Type} (contract : String) (read : Json → Option α) (value : Wire.Bytes) :
    Except IndexerError α :=
  match (Wire.readFields? 0 value).bind (Wire.bytesField? 1) with
  | none => .error (.query (contract ++ ": failed to decode Protobuf message"))
  | some data =>
    match (Json.ofBytes? data).bind read with
    | some a => .ok a
    | none => .error (.query (contract ++ ": unexpected response"))

def queryParams (data : Wire.Bytes) (height : Option Height) : List (String × String) :=
  [("path", "\"" ++ smartQueryPath ++ "\""), ("data", "0x" ++ hexText data)] ++
    height.toList.map fun h => ("height", toString h)

def Client.smart {α : Type} (c : Client) (contract : String) (question : Json)
    (height : Option Height) (read : Json → Option α) : Calling (Except IndexerError α) := do
  let params := queryParams (smartRequest contract question) height
  match ← c.get "abci_query" params QueryResponse.ofJson? with
  | .error e => return .error (.query e.message)
  | .ok response => return response.read.bind (readSmart contract read)

def tagged (name : String) (content : Json) : Json := .object [(name, content)]

def field? {α : Type} (name : String) (read : Json → Option α) (j : Json) : Option α := do
  let f ← j.fields? [name]
  f.required 0 read

def Client.answer (c : Client) (staking : String) : (q : Query) → Calling (Except IndexerError q.Answer)
  | .pool address height => c.smart address (tagged "pool" .empty) height PoolReport.ofJson?
  | .totalSupply token =>
    c.smart token (tagged "token_info" .empty) none (field? "total_supply" Json.amount?)
  | .totalBond token =>
    c.smart staking (tagged "pool_info" (tagged "staking_token" (.text token))) none
      (field? "total_bond_amount" Json.amount?)
  | .rewards token =>
    c.smart staking (tagged "rewards_per_sec" (tagged "staking_token" (.text token))) none
      (field? "assets" (Json.list? Asset.ofJson?))
  | .listing factory first second =>
    c.smart factory
      (tagged "pair" (tagged "asset_infos" (.list [first.toJson, second.toJson]))) none
      Listing.ofJson?

end PoolLedger.Node
