/-! Failures of the indexer: what failed, the text for readers, and the numbers
that web clients see. -/

namespace PoolLedger

structure Mismatch where
  table : String
  column : String
  expected : String
  found : String
deriving DecidableEq

inductive IndexerError
  | chain (detail : String)
  | query (detail : String)
  | decode (detail : String)
  | persistence (detail : String)
  | schemaMismatch (m : Mismatch)
  | notFound (what : String)
  | invalidRequest (detail : String)
  | config (detail : String)
  | internal (detail : String)
deriving DecidableEq

namespace IndexerError

def message : IndexerError → String
  | .chain d => "chain source error: " ++ d
  | .query d => "contract query error: " ++ d
  | .decode d => "decode error: " ++ d
  | .persistence d => "persistence error: " ++ d
  | .schemaMismatch m =>
    "schema mismatch in " ++ m.table ++ "." ++ m.column ++ ": expected " ++ m.expected ++
      ", found " ++ m.found
  | .notFound w => "not found: " ++ w
  | .invalidRequest d => "invalid request: " ++ d
  | .config d => "configuration error: " ++ d
  | .internal d => "internal error: " ++ d

def code : IndexerError → Nat
  | .invalidRequest _ => 1001
  | .config _ => 1002
  | .decode _ => 1003
  | .notFound _ => 2001
  | .internal _ => 3000
  | .persistence _ => 3001
  | .chain _ => 3002
  | .query _ => 3003
  | .schemaMismatch _ => 4001

def status : IndexerError → Nat
  | .invalidRequest _ | .config _ | .decode _ => 400
  | .notFound _ => 404
  | .chain _ | .query _ => 502
  | .persistence _ | .internal _ => 500
  | .schemaMismatch _ => 422

def isTransient : IndexerError → Bool
  | .chain _ | .query _ | .persistence _ => true
  | _ => false

end IndexerError

/-- How work ends without a result: with a failure, or because a computed value
left its range. -/
inductive Fault
  | failed (e : IndexerError)
  | overflow
deriving DecidableEq

def Fault.ofOption {α : Type} : Option α → Except Fault α
  | some a => .ok a
  | none => .error .overflow

def Fault.ofExcept {α : Type} : Except IndexerError α → Except Fault α
  | .ok a => .ok a
  | .error e => .error (.failed e)

end PoolLedger
