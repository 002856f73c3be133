import PoolLedger.Curated
import PoolLedger.Query
import PoolLedger.Reserves

/-! Dollar prices from the reserves of pools. A price is fixed, or follows the
first path that can be gone: straight to the dollar token, through the native
coin, or through one asset more. -/

namespace PoolLedger

/-- The pairs with the reserves known of their pools, by address; the last
entry of an address counts. -/
structure Market where
  registry : Registry
  pools : List (String × Reserves)

namespace Market

def pool? (m : Market) (p : Pair) : Option Reserves :=
  (m.pools.reverse.find? fun e => e.1 = p.address).map Prod.snd

def load (r : Registry) : Asking Market := do
  let addressed := r.pairs.filter fun p => p.address ≠ ""
  let pools ← addressed.mapM fun p => do
    match ← ask (.pool p.address none) with
    | .ok report => return some (p.address, Reserves.ofReport p report)
    | .error _ => return none
  return ⟨r, pools.filterMap id⟩

def sideOf (p : Pair) (pool : Reserves) (denom : String) : Amount :=
  if p.base.denom = denom then pool.base else pool.quote

def ratio? (m : Market) (source target : String) : Option Float := do
  let (pair, _) ← m.registry.find? source target
  let pool ← m.pool? pair
  let held := Real.scaled (sideOf pair pool source) (← pair.decimalsOf? source)
  let other := Real.scaled (sideOf pair pool target) (← pair.decimalsOf? target)
  if held ≤ 0.0 then none else some (other / held)

def viaMiddle? (m : Market) (denom : String) (oraiPrice : Float) (middle : AssetId) :
    Option Float := do
  let hop ← m.ratio? denom middle.denom
  let inOrai ← m.ratio? middle.denom Curated.oraiDenom
  return hop * inOrai * oraiPrice

/-- Dollars for one unit of an asset, zero when no path leads there. -/
def dollarPrice (m : Market) (denom : String) : Float :=
  match m.registry.fixedPrice? denom with
  | some price => price
  | none =>
    if denom = Curated.usdtContract then 1.0
    else
      match m.ratio? denom Curated.usdtContract with
      | some price => price
      | none =>
        match m.ratio? Curated.oraiDenom Curated.usdtContract with
        | none => 0.0
        | some oraiPrice =>
          match m.ratio? denom Curated.oraiDenom with
          | some inOrai => inOrai * oraiPrice
          | none =>
            let middles := m.registry.pairs.filterMap fun p => p.otherSide? denom
            (middles.findSome? (m.viaMiddle? denom oraiPrice)).getD 0.0

def liquidityValue (m : Market) (p : Pair) : Float :=
  match m.pool? p with
  | none => 0.0
  | some pool =>
    Real.scaled pool.base p.baseDecimals * m.dollarPrice p.base.denom +
      Real.scaled pool.quote p.quoteDecimals * m.dollarPrice p.quote.denom

end Market

end PoolLedger
