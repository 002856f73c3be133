import PoolLedger.Json.Shape
import PoolLedger.Base64
import PoolLedger.Transaction

/-! What a contract execution means for the exchange. The message is a JSON
value with one member, named for what it does. Sending LP tokens to a contract
carries a second message, in base64. -/

namespace PoolLedger

inductive Message
  | swap
  | provideLiquidity
  | withdrawLiquidity (lpToken : String) (share : Amount)
  | bond (lpToken : String) (amount : Amount)
  | unbond (lpToken : String) (amount : Amount)
  | updateRewards (lpToken : String)
  | other
deriving DecidableEq

namespace Message

def isBare (j : Json) (name : String) : Bool :=
  match j.variant? with
  | some (k, content) => k = name && content.isObject
  | none => false

def record? (j : Json) (name : String) (fields : List String) : Option Json.Fields :=
  match j.variant? with
  | some (k, content) => if k = name then content.fields? fields else none
  | none => none

def send? (j : Json) : Option (Amount × Option String) := do
  let f ← record? j "send" ["amount", "msg"]
  return (← f.required 0 Json.amount?, ← f.default 1 (Json.nullable Json.text?) none)

def unbond? (j : Json) : Option (String × Amount) := do
  let f ← record? j "unbond" ["staking_token", "amount"]
  return (← f.required 0 Json.text?, ← f.required 1 Json.amount?)

def updateRewards? (j : Json) : Option String := do
  let f ← record? j "update_rewards_per_sec" ["staking_token"]
  f.required 0 Json.text?

def isSwap (j : Json) : Bool := isBare j "execute_swap_operations" || isBare j "swap"

def ofHook (contract : String) (amount : Amount) (j : Json) : Message :=
  if isSwap j then .swap
  else if isBare j "withdraw_liquidity" then .withdrawLiquidity contract amount
  else if isBare j "bond" then .bond contract amount
  else .other

def hook? (encoded : String) : Option Json :=
  (Base64.decodeText? encoded).bind Json.parseBytes?

/-- The meaning of a value; none when the inner message of a `send` cannot be
read. -/
def ofValue? (contract : String) (j : Json) : Option Message :=
  if isSwap j then some .swap
  else if isBare j "provide_liquidity" then some .provideLiquidity
  else
    match send? j with
    | some (_, none) => some .other
    | some (amount, some encoded) => (hook? encoded).map (ofHook contract amount)
    | none =>
      match unbond? j with
      | some (token, amount) => some (.unbond token amount)
      | none =>
        match updateRewards? j with
        | some token => some (.updateRewards token)
        | none => some .other

def ofExecution? (e : Execution) : Option Message :=
  (Json.parseBytes? e.body).bind (ofValue? e.contract)

end Message

end PoolLedger
