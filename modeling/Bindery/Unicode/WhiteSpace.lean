/-!
# White space

The Unicode property White_Space, and trimming by it. The separators
U+001C to U+001F, the zero width space and the byte order mark are not white
space; the next line U+0085 and the no-break spaces are.

Text is a list of characters here, as everywhere in the layout.
-/

namespace Bindery.Unicode

def isWhiteSpace (c : Char) : Bool :=
  let n := c.toNat
  (0x09 ≤ n && n ≤ 0x0D) || n == 0x20 || n == 0x85 || n == 0xA0 || n == 0x1680 ||
    (0x2000 ≤ n && n ≤ 0x200A) || n == 0x2028 || n == 0x2029 || n == 0x202F || n == 0x205F ||
    n == 0x3000

/-- White space and nothing else; the empty text is blank. -/
def isBlank (cs : List Char) : Bool := cs.all isWhiteSpace

/-! ## Trimming -/

def trimStart (cs : List Char) : List Char := cs.dropWhile isWhiteSpace

def trimEnd (cs : List Char) : List Char := (trimStart cs.reverse).reverse

def trim (cs : List Char) : List Char := trimEnd (trimStart cs)

end Bindery.Unicode
