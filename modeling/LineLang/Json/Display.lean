import LineLang.Json.Basic
import LineLang.Text.Quoted

/-!
# Data in diagnostics

* `Json.literal` : a datum as a diagnostic quotes it inside another: texts in quotes, `None`, `True`, `False`,
  lists in brackets, objects in braces;
* `Json.shown` : a datum on its own, where a text stands as it is.
-/

namespace LineLang.Json

/-- A number as diagnostics show it. -/
def Number.text : Number → String
  | .int n => Text.Decimal.ofInt n
  | .real x => x.text

mutual

def literal : Json → String
  | .null => "None"
  | .bool true => "True"
  | .bool false => "False"
  | .num n => n.text
  | .str s => Text.quoted s
  | .arr items => "[" ++ ", ".intercalate (literalItems items) ++ "]"
  | .obj fields => "\x7b" ++ ", ".intercalate (literalFields fields) ++ "\x7d"

def literalItems : List Json → List String
  | [] => []
  | x :: xs => literal x :: literalItems xs

def literalFields : List (String × Json) → List String
  | [] => []
  | (name, x) :: xs => (Text.quoted name ++ ": " ++ literal x) :: literalFields xs

end

def shown : Json → String
  | .str s => s
  | j => j.literal

@[simp] theorem shown_str (s : String) : (Json.str s).shown = s := rfl

end LineLang.Json
