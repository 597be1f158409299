import LineLang.Json.Basic
import LineLang.Text.Quoted

/-!
# JSON text, written

* `Json.Layout` : on one line, or an item a line with two spaces for each level;
* `Json.escape` : a character inside a JSON text; only the quote, the backslash and the controls below U+0020 are
  escaped;
* `Json.write` : the JSON text of a datum. Empty lists and objects stay on one line.
-/

namespace LineLang.Json

/-- How the items of a list or object are set apart. -/
inductive Layout where
  | oneLine
  | indented
  deriving DecidableEq, Repr

namespace Layout

/-- A new line at the given level; nothing in the one-line layout. -/
def newline : Layout → Nat → List Char
  | .oneLine, _ => []
  | .indented, level => '\n' :: List.replicate (2 * level) ' '

/-- What stands between two items at the given level. -/
def separator : Layout → Nat → List Char
  | .oneLine, _ => [',', ' ']
  | .indented, level => ',' :: newline .indented level

end Layout

def escape (c : Char) : List Char :=
  if c = '\x22' then ['\\', '\x22']
  else if c = '\\' then ['\\', '\\']
  else if c = '\n' then ['\\', 'n']
  else if c = '\r' then ['\\', 'r']
  else if c = '\t' then ['\\', 't']
  else if c = '\x0c' then ['\\', 'f']
  else if c = '\x08' then ['\\', 'b']
  else if c.toNat < 0x20 then '\\' :: 'u' :: Text.hexDigits 4 c.toNat
  else [c]

def writeText (s : String) : List Char :=
  '\x22' :: (s.toList.flatMap escape ++ ['\x22'])

def writeNumber : Number → List Char
  | .int n => (Text.Decimal.ofInt n).toList
  | .real .nan => ['N', 'a', 'N']
  | .real (.infinite false) => "Infinity".toList
  | .real (.infinite true) => "-Infinity".toList
  | .real x => x.text.toList

mutual

/-- The characters of a datum, at the given level. -/
def writeAt (layout : Layout) (level : Nat) : Json → List Char
  | .null => "null".toList
  | .bool true => "true".toList
  | .bool false => "false".toList
  | .num n => writeNumber n
  | .str s => writeText s
  | .arr [] => ['[', ']']
  | .arr (x :: xs) =>
    '[' :: (layout.newline (level + 1) ++ writeAt layout (level + 1) x ++
      writeItems layout (level + 1) xs ++ layout.newline level ++ [']'])
  | .obj [] => ['\x7b', '\x7d']
  | .obj ((name, x) :: xs) =>
    '\x7b' :: (layout.newline (level + 1) ++ writeText name ++ [':', ' '] ++
      writeAt layout (level + 1) x ++ writeFields layout (level + 1) xs ++ layout.newline level ++
      ['\x7d'])

/-- The items of a list after the first. -/
def writeItems (layout : Layout) (level : Nat) : List Json → List Char
  | [] => []
  | x :: xs => layout.separator level ++ writeAt layout level x ++ writeItems layout level xs

/-- The fields of an object after the first. -/
def writeFields (layout : Layout) (level : Nat) : List (String × Json) → List Char
  | [] => []
  | (name, x) :: xs =>
    layout.separator level ++ writeText name ++ [':', ' '] ++ writeAt layout level x ++
      writeFields layout level xs

end

def write (layout : Layout) (j : Json) : String :=
  String.ofList (writeAt layout 0 j)

end LineLang.Json
