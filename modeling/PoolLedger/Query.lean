import PoolLedger.Asset
import PoolLedger.Error

/-! Questions to contracts, and programs that ask them. A querier sees which
questions came before, so its answers may change from call to call; a steady
one answers each question always alike. -/

namespace PoolLedger

inductive Query
  | pool (address : String) (height : Option Height)
  | totalSupply (lpToken : String)
  | totalBond (lpToken : String)
  | rewards (lpToken : String)
  | listing (factory : String) (first second : AssetId)
deriving DecidableEq

abbrev Query.Answer : Query → Type
  | .pool _ _ => PoolReport
  | .totalSupply _ => Amount
  | .totalBond _ => Amount
  | .rewards _ => List Asset
  | .listing _ _ _ => Listing

/-- Answers to questions, given those asked before, latest first. -/
structure Querier where
  answer : List Query → (q : Query) → Except IndexerError q.Answer

/-- Each question has one answer. -/
def Querier.Steady (k : Querier) : Prop :=
  ∀ before before' q, k.answer before q = k.answer before' q

def Querier.fixed (table : (q : Query) → Except IndexerError q.Answer) : Querier :=
  ⟨fun _ q => table q⟩

theorem Querier.fixed_steady (table : (q : Query) → Except IndexerError q.Answer) :
    (Querier.fixed table).Steady :=
  fun _ _ _ => rfl

/-- A program that asks questions. It keeps them, latest first. -/
abbrev Asking := ReaderT Querier (StateM (List Query))

def ask (q : Query) : Asking (Except IndexerError q.Answer) :=
  fun k before => (k.answer before q, q :: before)

def Asking.run {α : Type} (p : Asking α) (k : Querier) : α × List Query :=
  let (a, asked) := p k []
  (a, asked.reverse)

end PoolLedger
