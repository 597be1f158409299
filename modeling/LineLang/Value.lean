import LineLang.Number.Word
import LineLang.Text.Decimal

/-!
# Values

The language computes with signed 64-bit integers. A print statement wraps its value, and that wrapping is what
ends a block. Where there is no value, as after a division by zero or at an unknown name, the value is `missing`.

* `Value`, `Value.ofInt` : the values; an integer is brought into 64 bits;
* `Value.text` : the text of a value, `nil` for a missing one;
* `Value.isTrue` : only what has the text `1` is true;
* `Value.hasOutput` : whether an integer is left once the wrapping is taken off;
* `Value.apply` : the binary operators. They work on plain integers only, and `&&` and `||` look for the exact
  number one.
-/

namespace LineLang

inductive Value where
  | missing
  | int (n : Int)
  | printed (v : Value)
  deriving DecidableEq, Repr

namespace Value

def ofInt (n : Int) : Value := .int (Word.wrap n)

/-- The value of a comparison. -/
def ofBool (b : Bool) : Value := .int (if b then 1 else 0)

def isMissing : Value → Bool
  | .missing => true
  | _ => false

def text : Value → String
  | .missing => "nil"
  | .int n => Text.Decimal.ofInt n
  | .printed v => v.text

/-- Whether a condition with this value holds. -/
def isTrue : Value → Bool
  | .missing => false
  | v => v.text = "1"

def hasOutput : Value → Bool
  | .missing => false
  | .int _ => true
  | .printed v => v.hasOutput

/-- The result of the operator with the given spelling on two integers. -/
def applyInt (operator : String) (a b : Int) : Value :=
  match operator with
  | "+" => .ofInt (a + b)
  | "-" => .ofInt (a - b)
  | "*" => .ofInt (a * b)
  | "/" => ((Word.quotient? a b).map ofInt).getD .missing
  | "%" => ((Word.remainder? a b).map ofInt).getD .missing
  | ">" => .ofBool (b < a)
  | ">=" => .ofBool (b ≤ a)
  | "<" => .ofBool (a < b)
  | "<=" => .ofBool (a ≤ b)
  | "==" => .ofBool (a = b)
  | "!=" => .ofBool (a ≠ b)
  | "||" => .ofBool (a = 1 || b = 1)
  | "&&" => .ofBool (a = 1 && b = 1)
  | _ => .missing

def apply (operator : String) : Value → Value → Value
  | .int a, .int b => applyInt operator a b
  | _, _ => .missing

end Value

end LineLang
