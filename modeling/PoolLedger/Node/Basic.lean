import PoolLedger.Error
import PoolLedger.Json.Shape
import PoolLedger.Json.Writer
import PoolLedger.Text.Quoted
import PoolLedger.Wire

/-! A chain node behind a web address. A request is a route with parameters.
What comes back is wrapped: the result, or the error of the node. -/

namespace PoolLedger.Node

structure Request where
  path : String
  params : List (String × String)
deriving DecidableEq

inductive Reply
  | unreachable
  | response (status : Nat) (body : Wire.Bytes)

/-- Replies to requests, given those sent before, latest first. -/
structure Transport where
  reply : List Request → Request → Reply

def Transport.down : Transport := ⟨fun _ _ => .unreachable⟩

abbrev Calling := ReaderT Transport (StateM (List Request))

def Calling.run {α : Type} (p : Calling α) (t : Transport) : α × List Request :=
  let (a, sent) := p t []
  (a, sent.reverse)

def send (q : Request) : Calling Reply := fun t before => (t.reply before q, q :: before)

structure Client where
  base : String

def Client.at (url : String) : Client :=
  ⟨String.ofList ((url.toList.reverse.dropWhile (· = '/')).reverse)⟩

structure Wrapped (α : Type) where
  result : Option α
  error : Option Json

def Wrapped.ofJson? {α : Type} (read : Json → Option α) (j : Json) : Option (Wrapped α) := do
  let f ← j.fields? ["result", "error"]
  return ⟨← f.optional 0 read, ← f.default 1 (Json.nullable (Json.valueAt? 1)) none⟩

def readReply {α : Type} (route : String) (read : Json → Option α) : Reply → Except IndexerError α
  | .unreachable => .error (.chain (route ++ ": error sending request"))
  | .response status body =>
    if 400 ≤ status then .error (.chain (route ++ ": HTTP status"))
    else
      match (Json.ofBytes? body).bind (Wrapped.ofJson? read) with
      | none => .error (.chain (route ++ ": invalid body"))
      | some ⟨_, some error⟩ => .error (.chain (route ++ ": " ++ error.compact))
      | some ⟨some result, none⟩ => .ok result
      | some ⟨none, none⟩ => .error (.chain (route ++ ": empty result"))

namespace Client

def request (c : Client) (route : String) (params : List (String × String)) : Request :=
  ⟨c.base ++ "/" ++ route, params⟩

def get {α : Type} (c : Client) (route : String) (params : List (String × String))
    (read : Json → Option α) : Calling (Except IndexerError α) := do
  return readReply route read (← send (c.request route params))

end Client

def readHeight (raw : String) : Except IndexerError Height :=
  match (Ranged.read raw : Except IntegerFault Height) with
  | .ok h => .ok h
  | .error e => .error (.chain ("invalid integer " ++ Text.quoted raw ++ ": " ++ e.message))

end PoolLedger.Node
