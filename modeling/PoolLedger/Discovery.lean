import PoolLedger.Pair
import PoolLedger.Query

/-! Finding the contracts of pairs. Factories are asked in their order, and the
first that knows a pair tells its addresses. -/

namespace PoolLedger.Discovery

def lookup (p : Pair) : List String → Asking (Option Listing)
  | [] => return none
  | factory :: rest => do
    match ← ask (.listing factory p.base p.quote) with
    | .ok entry => return some entry
    | .error _ => lookup p rest

def complete (p : Pair) (entry : Listing) : Pair :=
  { p with
    address := entry.pairAddress
    lpToken := entry.lpToken
    oracle := entry.oracle
    commissionRate := entry.commissionRate.getD p.commissionRate }

/-- The pairs that a factory knows, completed, and those that had an address
before, as they were. -/
def discover (factories : List String) (pairs : List Pair) : Asking (List Pair) := do
  let named := factories.filter (· ≠ "")
  let found ← pairs.mapM fun p => do
    match ← lookup p named with
    | some entry => return some (complete p entry)
    | none => return if p.address = "" then none else some p
  return found.filterMap id

end PoolLedger.Discovery
