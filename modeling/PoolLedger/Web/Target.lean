/-! The target of a web request: a path of segments and the fields of a query,
after the scheme and the host if they are named. Percent signs stand for bytes,
and in a query a plus stands for a blank. -/

namespace PoolLedger.Web

def hexValue? (c : Char) : Option Nat :=
  if c.isDigit then some (c.toNat - '0'.toNat)
  else if 'a' ≤ c ∧ c ≤ 'f' then some (c.toNat - 'a'.toNat + 10)
  else if 'A' ≤ c ∧ c ≤ 'F' then some (c.toNat - 'A'.toNat + 10)
  else none

/-- The bytes of a text with its percent signs resolved. One that no two
hexadecimal digits follow stands for itself. -/
def percentDecode : List Char → List UInt8
  | '%' :: a :: b :: rest =>
    match hexValue? a, hexValue? b with
    | some x, some y => UInt8.ofNat (x * 16 + y) :: percentDecode rest
    | _, _ => UInt8.ofNat 37 :: percentDecode (a :: b :: rest)
  | c :: rest => c.toString.toUTF8.data.toList ++ percentDecode rest
  | [] => []
termination_by cs => cs.length

def decodeSegment? (segment : List Char) : Option String :=
  String.fromUTF8? ⟨(percentDecode segment).toArray⟩

def decodeField? (part : List Char) : Option String :=
  decodeSegment? (part.map fun c => if c = '+' then ' ' else c)

def splitAt (sep : Char) : List Char → List (List Char)
  | [] => [[]]
  | c :: cs =>
    match splitAt sep cs with
    | [] => [[c]]
    | p :: ps => if c = sep then [] :: p :: ps else (c :: p) :: ps

def field (part : List Char) : Option String × Option String :=
  (decodeField? (part.takeWhile (· ≠ '=')), decodeField? ((part.dropWhile (· ≠ '=')).drop 1))

def fields (query : List Char) : List (Option String × Option String) :=
  ((splitAt '&' query).filter fun p => !p.isEmpty).map field

/-- A target without its scheme and its host. The host ends where the path or
the query begins. -/
def dropOrigin (target : List Char) : List Char :=
  match target.dropWhile fun c => c ≠ ':' && c ≠ '/' with
  | ':' :: '/' :: '/' :: rest => rest.dropWhile fun c => c ≠ '/' && c ≠ '?'
  | _ => target

structure Target where
  segments : List (List Char)
  fields : List (Option String × Option String)

def Target.ofString (s : String) : Target :=
  let cs := dropOrigin (s.toList.takeWhile (· ≠ '#'))
  ⟨splitAt '/' (cs.takeWhile (· ≠ '?')), Web.fields ((cs.dropWhile (· ≠ '?')).drop 1)⟩

end PoolLedger.Web
