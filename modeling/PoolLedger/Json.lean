import PoolLedger.Ranged

/-! JSON trees as they are written: members keep their order and their
repetitions. A part that is well formed but stands for no value (a number
beyond the reals, a lone surrogate) is kept as `unreadable`, since such a part
may still be skipped. -/

namespace PoolLedger

inductive Json
  | null
  | bool (b : Bool)
  | int (n : Int)
  | real (x : Float)
  | text (s : String)
  | list (items : List Json)
  | object (members : List (String × Json))
  | unreadable

namespace Json

def empty : Json := .object []

mutual

def depth : Json → Nat
  | .list items => depthItems items + 1
  | .object members => depthMembers members + 1
  | _ => 0

def depthItems : List Json → Nat
  | [] => 0
  | x :: xs => max x.depth (depthItems xs)

def depthMembers : List (String × Json) → Nat
  | [] => 0
  | (_, x) :: xs => max x.depth (depthMembers xs)

end

mutual

def readable : Json → Bool
  | .list items => readableItems items
  | .object members => readableMembers members
  | .unreadable => false
  | _ => true

def readableItems : List Json → Bool
  | [] => true
  | x :: xs => x.readable && readableItems xs

def readableMembers : List (String × Json) → Bool
  | [] => true
  | (_, x) :: xs => x.readable && readableMembers xs

end

def insertMember (k : String) (v : Json) : List (String × Json) → List (String × Json)
  | [] => [(k, v)]
  | (k', v') :: rest =>
    if k = k' then (k, v) :: rest
    else if k < k' then (k, v) :: (k', v') :: rest
    else (k', v') :: insertMember k v rest

def sortMembers (members : List (String × Json)) : List (String × Json) :=
  members.foldl (fun acc m => insertMember m.1 m.2 acc) []

mutual

/-- The value that a tree stands for: each object in the order of its keys,
with the last member of each key. -/
def canonical : Json → Json
  | .list items => .list (canonicalItems items)
  | .object members => .object (sortMembers (canonicalMembers members))
  | j => j

def canonicalItems : List Json → List Json
  | [] => []
  | x :: xs => x.canonical :: canonicalItems xs

def canonicalMembers : List (String × Json) → List (String × Json)
  | [] => []
  | (k, x) :: xs => (k, x.canonical) :: canonicalMembers xs

end

def maxDepth : Nat := 127

/-- The value of a tree that stands `above` levels inside another one. -/
def valueAt? (above : Nat) (j : Json) : Option Json :=
  if j.readable && j.depth + above ≤ maxDepth then some j.canonical else none

def value? (j : Json) : Option Json := j.valueAt? 0

def member? (k : String) : Json → Option Json
  | .object members => (members.reverse.find? fun m => m.1 = k).map Prod.snd
  | _ => none

end Json

end PoolLedger
