import LineLang.Text.Printable

/-!
# Quoted text

A diagnostic quotes a text so that every character can be told apart.

* `quoteMark cs` : the single quote, unless `cs` holds one and no double quote;
* `escaped q c` : how `c` is written between two marks `q`;
* `quoted s` : the quoted form of `s`;
* `hexDigits w n` : `n` in lower-case hexadecimal on `w` places.
-/

namespace LineLang.Text

def hexDigits (w n : Nat) : List Char :=
  (List.range w).reverse.map fun i => Nat.digitChar (n / Nat.pow 16 i % 16)

def quoteMark (cs : List Char) : Char :=
  if cs.contains '\x27' && !cs.contains '\x22' then '\x22' else '\x27'

/-- A character between two marks `q`: the mark and the backslash behind a backslash, line breaks and tabs by
letter, what has no visible form by its number on two, four or eight places. -/
def escaped (q c : Char) : List Char :=
  if c = '\\' || c = q then ['\\', c]
  else if c = '\n' then ['\\', 'n']
  else if c = '\r' then ['\\', 'r']
  else if c = '\t' then ['\\', 't']
  else if isPrintable c then [c]
  else if c.toNat < 0x100 then '\\' :: 'x' :: hexDigits 2 c.toNat
  else if c.toNat < 0x10000 then '\\' :: 'u' :: hexDigits 4 c.toNat
  else '\\' :: 'U' :: hexDigits 8 c.toNat

def quoted (s : String) : String :=
  let cs := s.toList
  let q := quoteMark cs
  String.ofList (q :: (cs.flatMap (escaped q) ++ [q]))

end LineLang.Text
