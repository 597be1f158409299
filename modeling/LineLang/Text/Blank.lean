/-!
# Blanks around a numeral

* `isBlank c` : `c` may stand before or after a numeral.

The class holds the space, the controls U+0009 to U+000D and the separators beyond ASCII. The separators
U+001C to U+001F are not in it.
-/

namespace LineLang.Text

def isBlank (c : Char) : Bool :=
  let n := c.toNat
  (0x9 ≤ n && n ≤ 0xd) || n = 0x20 || n = 0x85 || n = 0xa0 || n = 0x1680 ||
    (0x2000 ≤ n && n ≤ 0x200a) || n = 0x2028 || n = 0x2029 || n = 0x202f || n = 0x205f || n = 0x3000

end LineLang.Text
