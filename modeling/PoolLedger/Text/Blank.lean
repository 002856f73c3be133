/-! Blank characters: the characters with the Unicode property White_Space,
and what is left of a text when they are cut off at both ends. -/

namespace PoolLedger.Text

/-- White_Space. The zero width space and the byte order mark are not in it. -/
def isBlank (c : Char) : Bool :=
  let n := c.toNat
  (9 ≤ n && n ≤ 13) || n == 0x20 || n == 0x85 || n == 0xA0 || n == 0x1680 ||
    (0x2000 ≤ n && n ≤ 0x200A) || n == 0x2028 || n == 0x2029 || n == 0x202F ||
    n == 0x205F || n == 0x3000

def dropBlankEnd (cs : List Char) : List Char := (cs.reverse.dropWhile isBlank).reverse

def trim (cs : List Char) : List Char := dropBlankEnd (cs.dropWhile isBlank)

end PoolLedger.Text
