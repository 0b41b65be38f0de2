/-!
# White space

The characters with the property White_Space, which are more than the blanks
that a JSON text may hold between its tokens.
-/

namespace Exemplar.Text

/-- White space: controls and spaces of ASCII and Latin-1, and the spaces and breaks above. -/
def isWhiteSpace (c : Char) : Bool :=
  let code := c.toNat
  (0x9 ≤ code && code ≤ 0xD) || code = 0x20 || code = 0x85 || code = 0xA0 || code = 0x1680 ||
    (0x2000 ≤ code && code ≤ 0x200A) || code = 0x2028 || code = 0x2029 || code = 0x202F ||
    code = 0x205F || code = 0x3000

def isBlank (text : List Char) : Bool := text.all isWhiteSpace

end Exemplar.Text
