/-!
# Blanks and controls

White space in the sense of the Unicode property `White_Space`, and the control characters (the
general category `Cc`). Both are small enough to be written out.
-/

namespace FiberLex.Text

/-- Whether a character is white space. -/
def isBlank (c : Char) : Bool :=
  let cp := c.toNat
  (9 ≤ cp && cp ≤ 13) || cp == 0x20 || cp == 0x85 || cp == 0xA0 || cp == 0x1680 ||
    (0x2000 ≤ cp && cp ≤ 0x200A) || cp == 0x2028 || cp == 0x2029 || cp == 0x202F ||
    cp == 0x205F || cp == 0x3000

/-- Whether a character is a control character. -/
def isControl (c : Char) : Bool := c.toNat < 0x20 || (0x7F ≤ c.toNat && c.toNat < 0xA0)

end FiberLex.Text
