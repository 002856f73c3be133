import PoolLedger.Json
import PoolLedger.Real.Shortest

/-! The compact text of a JSON tree: no blanks, members in their order, and
only what must be escaped is escaped. -/

namespace PoolLedger.Json

def hexDigit (n : Nat) : Char := Nat.digitChar n

def escapeChar (c : Char) : List Char :=
  match c with
  | '"' => ['\\', '"']
  | '\\' => ['\\', '\\']
  | '\x08' => ['\\', 'b']
  | '\t' => ['\\', 't']
  | '\n' => ['\\', 'n']
  | '\x0c' => ['\\', 'f']
  | '\r' => ['\\', 'r']
  | c =>
    if c.toNat < 0x20 then ['\\', 'u', '0', '0', hexDigit (c.toNat / 16), hexDigit (c.toNat % 16)]
    else [c]

def quote (s : String) : List Char := '"' :: s.toList.flatMap escapeChar ++ ['"']

mutual

def chars : Json → List Char
  | .null => ['n', 'u', 'l', 'l']
  | .bool true => ['t', 'r', 'u', 'e']
  | .bool false => ['f', 'a', 'l', 's', 'e']
  | .int n => (toString n).toList
  | .real x => (Real.text x).toList
  | .text s => quote s
  | .list items => '[' :: itemChars items
  | .object members => '\x7b' :: memberChars members
  | .unreadable => []

def itemChars : List Json → List Char
  | [] => [']']
  | [x] => x.chars ++ [']']
  | x :: xs => x.chars ++ ',' :: itemChars xs

def memberChars : List (String × Json) → List Char
  | [] => ['\x7d']
  | [(k, x)] => quote k ++ ':' :: x.chars ++ ['\x7d']
  | (k, x) :: xs => quote k ++ ':' :: x.chars ++ ',' :: memberChars xs

end

def compact (j : Json) : String := String.ofList j.chars

end PoolLedger.Json
