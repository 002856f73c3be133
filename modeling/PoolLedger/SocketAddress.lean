/-! Socket addresses in text: an IPv4 address, or an IPv6 address in brackets
with a zone or none, then a colon and a number of 16 bits. Each reading step
gives the rest of the text. -/

namespace PoolLedger

structure IPv4 where
  a : Nat
  b : Nat
  c : Nat
  d : Nat
deriving DecidableEq

structure IPv6 where
  groups : List Nat
deriving DecidableEq

inductive SocketAddress
  | v4 (ip : IPv4) (portNumber : Nat)
  | v6 (ip : IPv6) (zone : Nat) (portNumber : Nat)
deriving DecidableEq

namespace SocketAddress

def takeChar? (c : Char) : List Char → Option (List Char)
  | d :: rest => if d = c then some rest else none
  | [] => none

def digitIn? (radix : Nat) (c : Char) : Option Nat :=
  let v :=
    if c.isDigit then c.toNat - '0'.toNat
    else if 'a' ≤ c ∧ c ≤ 'f' then c.toNat - 'a'.toNat + 10
    else if 'A' ≤ c ∧ c ≤ 'F' then c.toNat - 'A'.toNat + 10
    else radix
  if v < radix then some v else none

def takeNumber? (radix : Nat) (cs : List Char) : Option (Nat × Nat × List Char) :=
  let digits := cs.takeWhile fun c => (digitIn? radix c).isSome
  if digits.isEmpty then none
  else
    let value := digits.foldl (fun n c => n * radix + (digitIn? radix c).getD 0) 0
    some (value, digits.length, cs.dropWhile fun c => (digitIn? radix c).isSome)

def takeOctet? (cs : List Char) : Option (Nat × List Char) := do
  let (n, length, rest) ← takeNumber? 10 cs
  if length ≤ 3 ∧ n < 256 ∧ (length = 1 ∨ cs.head? ≠ some '0') then some (n, rest) else none

def takeIPv4? (cs : List Char) : Option (IPv4 × List Char) := do
  let (a, cs) ← takeOctet? cs
  let (b, cs) ← takeOctet? (← takeChar? '.' cs)
  let (c, cs) ← takeOctet? (← takeChar? '.' cs)
  let (d, cs) ← takeOctet? (← takeChar? '.' cs)
  return (⟨a, b, c, d⟩, cs)

def takeGroup? (cs : List Char) : Option (Nat × List Char) := do
  let (n, length, rest) ← takeNumber? 16 cs
  if length ≤ 4 then some (n, rest) else none

/-- At most `count` groups with colons between them. An IPv4 address may stand
for the last two; the flag tells that one did. -/
def takeGroups (isFirst : Bool) : Nat → List Char → List Nat × Bool × List Char
  | 0, cs => ([], false, cs)
  | count + 1, cs =>
    let start := if isFirst then some cs else takeChar? ':' cs
    match if 1 ≤ count then start.bind takeIPv4? else none with
    | some (ip, rest) => ([ip.a * 256 + ip.b, ip.c * 256 + ip.d], true, rest)
    | none =>
      match start.bind takeGroup? with
      | some (g, rest) =>
        let (gs, four, rest) := takeGroups false count rest
        (g :: gs, four, rest)
      | none => ([], false, cs)

def takeIPv6? (cs : List Char) : Option (IPv6 × List Char) :=
  let (head, four, rest) := takeGroups true 8 cs
  if head.length = 8 then some (⟨head⟩, rest)
  else if four then none
  else do
    let rest ← takeChar? ':' (← takeChar? ':' rest)
    let (tail, _, rest) := takeGroups true (7 - head.length) rest
    return (⟨head ++ List.replicate (8 - head.length - tail.length) 0 ++ tail⟩, rest)

def takePortNumber? (cs : List Char) : Option (Nat × List Char) := do
  let (n, _, rest) ← takeNumber? 10 (← takeChar? ':' cs)
  if n < 65536 then some (n, rest) else none

def takeZone? (cs : List Char) : Option (Nat × List Char) := do
  let (n, _, rest) ← takeNumber? 10 (← takeChar? '%' cs)
  if n < 4294967296 then some (n, rest) else none

def takeV4? (cs : List Char) : Option (SocketAddress × List Char) := do
  let (ip, cs) ← takeIPv4? cs
  let (portNumber, cs) ← takePortNumber? cs
  return (.v4 ip portNumber, cs)

def takeV6? (cs : List Char) : Option (SocketAddress × List Char) := do
  let (ip, cs) ← takeIPv6? (← takeChar? '[' cs)
  let (zone, cs) := (takeZone? cs).getD (0, cs)
  let (portNumber, cs) ← takePortNumber? (← takeChar? ']' cs)
  return (.v6 ip zone portNumber, cs)

def read? (s : String) : Option SocketAddress :=
  match (takeV4? s.toList).or (takeV6? s.toList) with
  | some (address, []) => some address
  | _ => none

end SocketAddress

def IPv4.text (ip : IPv4) : String :=
  toString ip.a ++ "." ++ toString ip.b ++ "." ++ toString ip.c ++ "." ++ toString ip.d

namespace IPv6

def hex (n : Nat) : String := String.ofList (Nat.toDigits 16 n)

def colons (groups : List Nat) : String := String.intercalate ":" (groups.map hex)

def zeroRuns : List Nat → List Nat
  | [] => []
  | g :: rest =>
    let runs := zeroRuns rest
    (if g = 0 then runs.head?.getD 0 + 1 else 0) :: runs

def text (ip : IPv6) : String :=
  match ip.groups with
  | [0, 0, 0, 0, 0, 65535, x, y] =>
    "::ffff:" ++ IPv4.text ⟨x / 256, x % 256, y / 256, y % 256⟩
  | groups =>
    let runs := zeroRuns groups
    let longest := runs.foldl max 0
    let start := runs.idxOf longest
    if 1 < longest then
      colons (groups.take start) ++ "::" ++ colons (groups.drop (start + longest))
    else colons groups

end IPv6

def SocketAddress.text : SocketAddress → String
  | .v4 ip portNumber => ip.text ++ ":" ++ toString portNumber
  | .v6 ip zone portNumber =>
    let mark := if zone = 0 then "" else "%" ++ toString zone
    "[" ++ ip.text ++ mark ++ "]:" ++ toString portNumber

end PoolLedger
