import PoolLedger.Asset
import PoolLedger.Real.Basic

/-! Pairs of assets in their canonical order, base before quote, and the
registry that knows them by address, by LP token and by their two denoms. -/

namespace PoolLedger

structure Pair where
  base : AssetId
  quote : AssetId
  baseSymbol : String
  quoteSymbol : String
  baseDecimals : Index
  quoteDecimals : Index
  /-- Contract address, empty until a factory answers. -/
  address : String
  lpToken : String
  oracle : Option String
  commissionRate : String
deriving DecidableEq

inductive Orientation
  | canonical
  | reversed
deriving DecidableEq

inductive Direction
  | buy
  | sell
deriving DecidableEq

namespace Direction

def text : Direction → String
  | .buy => "Buy"
  | .sell => "Sell"

def ofText? : String → Option Direction
  | "Buy" => some .buy
  | "Sell" => some .sell
  | _ => none

def unknown (s : String) : String := "unknown direction " ++ s

end Direction

namespace Orientation

def flip : Orientation → Orientation
  | .canonical => .reversed
  | .reversed => .canonical

def direction : Orientation → Direction
  | .canonical => .sell
  | .reversed => .buy

end Orientation

namespace Pair

def unlisted (base quote : AssetId) (baseSymbol quoteSymbol : String) : Pair where
  base := base
  quote := quote
  baseSymbol := baseSymbol
  quoteSymbol := quoteSymbol
  baseDecimals := 6
  quoteDecimals := 6
  address := ""
  lpToken := ""
  oracle := none
  commissionRate := "0.003"

/-- The name of the pair whichever way it is traded. -/
def key (p : Pair) : String := p.base.denom ++ "-" ++ p.quote.denom

def symbol (p : Pair) : String := p.baseSymbol ++ "/" ++ p.quoteSymbol

def orientation? (p : Pair) (first second : String) : Option Orientation :=
  if first = p.base.denom ∧ second = p.quote.denom then some .canonical
  else if first = p.quote.denom ∧ second = p.base.denom then some .reversed
  else none

def contains (p : Pair) (denom : String) : Bool := p.base.denom = denom || p.quote.denom = denom

def otherSide? (p : Pair) (denom : String) : Option AssetId :=
  if p.base.denom = denom then some p.quote
  else if p.quote.denom = denom then some p.base
  else none

def decimalsOf? (p : Pair) (denom : String) : Option Index :=
  if p.base.denom = denom then some p.baseDecimals
  else if p.quote.denom = denom then some p.quoteDecimals
  else none

def commission (p : Pair) : Float := (Real.read? p.commissionRate).getD 0.0

def isAddressed (p : Pair) : Bool := p.address ≠ "" && p.lpToken ≠ ""

end Pair

structure Registry where
  pairs : List Pair
  fixedPrices : List (String × Float)

namespace Registry

def ofPairs (pairs : List Pair) : Registry := ⟨pairs, []⟩

/-- The last pair at an address; the empty address is nobody's. -/
def byAddress? (r : Registry) (address : String) : Option Pair :=
  if address = "" then none else r.pairs.reverse.find? fun p => p.address = address

def byLpToken? (r : Registry) (token : String) : Option Pair :=
  if token = "" then none else r.pairs.reverse.find? fun p => p.lpToken = token

def find? (r : Registry) (first second : String) : Option (Pair × Orientation) :=
  r.pairs.findSome? fun p => (p.orientation? first second).map fun o => (p, o)

def direction? (r : Registry) (offer ask : String) : Option (Pair × Direction) :=
  (r.find? offer ask).map fun m => (m.1, m.2.direction)

def fixedPrice? (r : Registry) (denom : String) : Option Float :=
  (r.fixedPrices.reverse.find? fun f => f.1 = denom).map Prod.snd

end Registry

end PoolLedger
