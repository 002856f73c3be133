import PoolLedger.Ascending
import PoolLedger.Price
import PoolLedger.Snapshot

/-! Yearly yield of bonded liquidity. A batch renews the yield of the pairs it
touches, and asks again only for what it may have changed: liquidity changes
move the supply, bonds the bonded amount, a new reward rate everything. -/

namespace PoolLedger

structure AprRecord where
  pairAddress : String
  height : Height
  totalSupply : Amount
  totalBond : Amount
  rewards : String
  apr : Float
  timestamp : Timestamp
  uniqueKey : String
deriving DecidableEq

instance : Keyed AprRecord := ⟨AprRecord.uniqueKey⟩

structure AprTriggers where
  totalSupply : List String
  totalBond : List String
  everything : Bool
deriving DecidableEq

namespace AprTriggers

def addresses (xs : List String) : List String :=
  Ascending.ofList (fun a b : String => a < b) xs

def collect (r : Registry) (liquidity : List LiquidityChange) (staking : List StakingChange) :
    AprTriggers where
  totalSupply := addresses ((liquidity.filter fun e =>
    (r.byAddress? e.pairAddress).isSome).map LiquidityChange.pairAddress)
  totalBond := addresses ((staking.filter fun e => e.action ≠ .updateRewards).filterMap fun e =>
    (r.byLpToken? e.lpToken).map Pair.address)
  everything := staking.any fun e => e.action = .updateRewards

def isEmpty (t : AprTriggers) : Bool :=
  !t.everything && t.totalSupply.isEmpty && t.totalBond.isEmpty

def touched (t : AprTriggers) (r : Registry) : List Pair :=
  r.pairs.filter fun p => p.isAddressed &&
    (t.everything || t.totalSupply.contains p.address || t.totalBond.contains p.address)

end AprTriggers

namespace Apr

def secondsPerYear : Float := 31536000.0

def defaultDecimals : Index := 6

/-- Percent of the bonded value that the rewards of a year come to; zero when
there is nothing to divide by. -/
def percent (totalSupply totalBond : Amount) (liquidity rewards : Float) : Float :=
  if totalSupply = 0 ∨ totalBond = 0 ∨ liquidity ≤ 0.0 then 0.0
  else
    let bonded := totalBond.toReal * liquidity / totalSupply.toReal
    if !Real.isFinite bonded ∨ bonded ≤ 0.0 then 0.0 else 100.0 * rewards / bonded

def yearlyRewards (m : Market) (rewards : List Asset) : Float :=
  rewards.foldl (fun sum a =>
    let decimals := (m.registry.pairs.findSome? fun p => p.decimalsOf? a.denom).getD defaultDecimals
    sum + secondsPerYear * Real.scaled a.amount decimals * m.dollarPrice a.denom) 0.0

structure Inputs where
  totalSupply : Amount
  totalBond : Amount
  rewards : List Asset

namespace Inputs

def none : Inputs := ⟨0, 0, []⟩

def ofRecord (r : AprRecord) : Inputs :=
  ⟨r.totalSupply, r.totalBond, (Asset.readList? r.rewards).getD []⟩

end Inputs

/-- Asks again when that is wanted; without an answer the old value stays. -/
def renew {α : Type} (wanted : Bool) (old : α) (program : Asking (Except IndexerError α)) :
    Asking α :=
  if wanted then do
    match ← program with
    | .ok new => return new
    | .error _ => return old
  else return old

def renewInputs (t : AprTriggers) (p : Pair) (past : Option Inputs) : Asking Inputs := do
  let all := t.everything || past.isNone
  let old := past.getD .none
  let supply ← renew (all || t.totalSupply.contains p.address) old.totalSupply
    (ask (.totalSupply p.lpToken))
  let bond ← renew (all || t.totalBond.contains p.address) old.totalBond
    (ask (.totalBond p.lpToken))
  let rewards ← renew all old.rewards (ask (.rewards p.lpToken))
  return ⟨supply, bond, rewards⟩

def record (m : Market) (height : Height) (timestamp : Timestamp) (p : Pair) (i : Inputs) :
    AprRecord where
  pairAddress := p.address
  height := height
  totalSupply := i.totalSupply
  totalBond := i.totalBond
  rewards := Asset.writeList i.rewards
  apr := percent i.totalSupply i.totalBond (m.liquidityValue p) (yearlyRewards m i.rewards)
  timestamp := timestamp
  uniqueKey := heightKey height p.address

/-- New records for the touched pairs, in their order. The past of a pair is
its latest record, as `latest` tells it. -/
def refresh (r : Registry) (latest : String → Except IndexerError (Option AprRecord))
    (t : AprTriggers) (height : Height) (timestamp : Timestamp) :
    Asking (Except IndexerError (List AprRecord)) := do
  let pairs := if t.isEmpty then [] else t.touched r
  if pairs.isEmpty then return .ok []
  else
    match pairs.mapM fun p => (latest p.address).map fun past => (p, past.map Inputs.ofRecord) with
    | .error e => return .error e
    | .ok known =>
      let inputs ← known.mapM fun (p, past) => do return (p, ← renewInputs t p past)
      let market ← Market.load r
      return .ok (inputs.map fun (p, i) => record market height timestamp p i)

end Apr

end PoolLedger
