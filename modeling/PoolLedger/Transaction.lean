import PoolLedger.Wire
import PoolLedger.Error
import PoolLedger.Ranged

/-! Transactions as the chain delivers them, and the contract executions inside
their bytes. -/

namespace PoolLedger

open Wire (Bytes)

structure Transaction where
  hash : String
  height : Height
  index : Index
  code : Index
  rawLog : String
  bytes : Bytes
  timestamp : Timestamp

structure Coin where
  denom : String
  amount : String
deriving DecidableEq

structure Execution where
  sender : String
  contract : String
  body : Bytes
  funds : List Coin
deriving DecidableEq

structure Envelope where
  typeName : String
  value : Bytes
deriving DecidableEq

structure TransactionBody where
  messages : List Envelope
  memo : String
  timeoutHeight : Nat
deriving DecidableEq

structure SignedTransaction where
  body : Bytes
  authInfo : Bytes
  signatures : List Bytes
deriving DecidableEq

def executionType : String := "/cosmwasm.wasm.v1.MsgExecuteContract"

namespace Coin

def write (c : Coin) : Bytes := Wire.writeTextField 1 c.denom ++ Wire.writeTextField 2 c.amount

def readAt? (above : Nat) (b : Bytes) : Option Coin := do
  let fs ← Wire.readFields? above b
  return ⟨← Wire.textField? 1 fs, ← Wire.textField? 2 fs⟩

end Coin

namespace Execution

def write (e : Execution) : Bytes :=
  Wire.writeTextField 1 e.sender ++ Wire.writeTextField 2 e.contract ++
    Wire.writeBytesField 3 e.body ++ e.funds.flatMap fun c => Wire.writeBytes 5 c.write

def read? (b : Bytes) : Option Execution := do
  let fs ← Wire.readFields? 0 b
  let funds ← (← Wire.byteStrings? 5 fs).mapM (Coin.readAt? 1)
  return ⟨← Wire.textField? 1 fs, ← Wire.textField? 2 fs, ← Wire.bytesField? 3 fs, funds⟩

def envelope (e : Execution) : Envelope := ⟨executionType, e.write⟩

end Execution

namespace Envelope

def write (m : Envelope) : Bytes :=
  Wire.writeTextField 1 m.typeName ++ Wire.writeBytesField 2 m.value

def readAt? (above : Nat) (b : Bytes) : Option Envelope := do
  let fs ← Wire.readFields? above b
  return ⟨← Wire.textField? 1 fs, ← Wire.bytesField? 2 fs⟩

end Envelope

namespace TransactionBody

def write (t : TransactionBody) : Bytes :=
  t.messages.flatMap (fun m => Wire.writeBytes 1 m.write) ++ Wire.writeTextField 2 t.memo ++
    Wire.writeVarintField 3 t.timeoutHeight

def read? (b : Bytes) : Option TransactionBody := do
  let fs ← Wire.readFields? 0 b
  let messages ← (← Wire.byteStrings? 1 fs).mapM (Envelope.readAt? 1)
  return ⟨messages, ← Wire.textField? 2 fs, ← Wire.varintField? 3 fs⟩

end TransactionBody

namespace SignedTransaction

def write (t : SignedTransaction) : Bytes :=
  Wire.writeBytesField 1 t.body ++ Wire.writeBytesField 2 t.authInfo ++
    t.signatures.flatMap (Wire.writeBytes 3)

def read? (b : Bytes) : Option SignedTransaction := do
  let fs ← Wire.readFields? 0 b
  return ⟨← Wire.bytesField? 1 fs, ← Wire.bytesField? 2 fs, ← Wire.byteStrings? 3 fs⟩

end SignedTransaction

def malformedPart (part : String) : IndexerError :=
  .decode (part ++ ": failed to decode Protobuf message")

def executionsFrom (position : Nat) : List Envelope → Except IndexerError (List (Nat × Execution))
  | [] => .ok []
  | m :: rest =>
    if m.typeName = executionType then
      match Execution.read? m.value with
      | none => .error (malformedPart "execute msg")
      | some e => (executionsFrom (position + 1) rest).map ((position, e) :: ·)
    else executionsFrom (position + 1) rest

def readExecutions (bytes : Bytes) : Except IndexerError (List (Nat × Execution)) :=
  match SignedTransaction.read? bytes with
  | none => .error (malformedPart "tx raw")
  | some signed =>
    match TransactionBody.read? signed.body with
    | none => .error (malformedPart "tx body")
    | some body => executionsFrom 0 body.messages

def writeExecutions (es : List Execution) : Bytes :=
  SignedTransaction.write ⟨TransactionBody.write ⟨es.map Execution.envelope, "", 0⟩, [], []⟩

end PoolLedger
