/-!
# Blank and Control Characters

Names may hold neither white space nor control characters. Both classes are those of the Unicode
character database.
-/

namespace SignedRefs.Text

/-- White space: the separators, tab, the line breaks and U+0085. -/
def isBlank (c : Char) : Bool :=
  let code := c.toNat
  (0x09 ≤ code && code ≤ 0x0d) || code == 0x20 || code == 0x85 || code == 0xa0 ||
    code == 0x1680 || (0x2000 ≤ code && code ≤ 0x200a) || code == 0x2028 || code == 0x2029 ||
    code == 0x202f || code == 0x205f || code == 0x3000

/-- Control characters: the two blocks below U+0020 and from U+007F to U+009F. -/
def isControl (c : Char) : Bool :=
  let code := c.toNat
  code < 0x20 || (0x7f ≤ code && code ≤ 0x9f)

end SignedRefs.Text
