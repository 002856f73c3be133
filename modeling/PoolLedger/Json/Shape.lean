import PoolLedger.Json.Reader
import PoolLedger.Text.Integer

/-! Shapes: reading domain data off a JSON tree. A record is an object or the
list of its fields in order. Members under other keys are skipped whatever
they hold; a field that stands twice is refused. -/

namespace PoolLedger.Json

structure Fields where
  positional : Bool
  values : List (Option Json)

/-- The one member under a key: none if absent, failure if repeated. -/
def single? (members : List (String × Json)) (k : String) : Option (Option Json) :=
  match members.filter fun m => m.1 = k with
  | [] => some none
  | [m] => some (some m.2)
  | _ => none

def fields? (names : List String) : Json → Option Fields
  | .object members => (names.mapM (single? members)).map (⟨false, ·⟩)
  | .list items =>
    if items.length ≤ names.length then
      some ⟨true, items.map some ++ List.replicate (names.length - items.length) none⟩
    else none
  | _ => none

def Fields.at (f : Fields) (i : Nat) : Option Json := (f.values[i]?).join

def Fields.required {α : Type} (f : Fields) (i : Nat) (read : Json → Option α) : Option α :=
  (f.at i).bind read

def Fields.default {α : Type} (f : Fields) (i : Nat) (read : Json → Option α) (d : α) : Option α :=
  match f.at i with
  | none => some d
  | some j => read j

def nullable {α : Type} (read : Json → Option α) : Json → Option (Option α)
  | .null => some none
  | j => (read j).map some

/-- A field that may be null or absent; absent only where fields have names. -/
def Fields.optional {α : Type} (f : Fields) (i : Nat) (read : Json → Option α) :
    Option (Option α) :=
  match f.at i with
  | none => if f.positional then none else some none
  | some j => nullable read j

def text? : Json → Option String
  | .text s => some s
  | _ => none

def list? {α : Type} (read : Json → Option α) : Json → Option (List α)
  | .list items => items.mapM read
  | _ => none

def ranged? {lo hi : Int} : Json → Option (Ranged lo hi)
  | .int n => Ranged.ofInt? n
  | _ => none

def amount? (j : Json) : Option Amount := j.text?.bind Ranged.read?

def variant? : Json → Option (String × Json)
  | .object [m] => some m
  | _ => none

def isObject : Json → Bool
  | .object _ => true
  | _ => false

end PoolLedger.Json
