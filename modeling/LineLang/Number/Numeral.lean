import LineLang.Text.Blank
import LineLang.Text.Decimal
import LineLang.Text.DecimalDigit
import LineLang.Text.Quoted

/-!
# Numerals

A numeral is an optional sign and decimal digits of any script, with single underscores allowed between two
digits and blanks allowed around the whole.

* `read s` : the number that `s` denotes;
* `Fault` : why a text is refused, with its wording `Fault.message`;
* `digitLimit` : a numeral may have at most so many digits, leading zeros counted;
* `literalValue s` : the value of a number in a program, zero for a text that is no numeral and for a number
  above `Word.greatest`.
-/

namespace LineLang.Numeral

def digitLimit : Nat := 4300

inductive Fault where
  | malformed (text : String)
  | tooLong (digits : Nat)
  deriving DecidableEq, Repr

/-- The wording of a fault. A malformed text is quoted, and the quoted form cut off after 200 characters. -/
def Fault.message : Fault → String
  | .malformed text =>
    "invalid literal for int() with base 10: " ++
      String.ofList ((Text.quoted text).toList.take 200)
  | .tooLong digits =>
    "Exceeds the limit (" ++ Text.Decimal.ofNat digitLimit ++
      " digits) for integer string conversion: value has " ++ Text.Decimal.ofNat digits ++
      " digits; use sys.set_int_max_str_digits() to increase the limit"

/-- The sign in front of a numeral, as a factor, and what follows it. -/
def sign : List Char → Int × List Char
  | '-' :: cs => (-1, cs)
  | '+' :: cs => (1, cs)
  | cs => (1, cs)

/-- Whether a character can stand among the digits of a numeral. -/
def isDigitOrBar (c : Char) : Bool := (Text.decimalDigit? c).isSome || c = '_'

/-- The digits of a run of digits and underscores, if every underscore stands between two digits. -/
def digits? (run : List Char) : Option (List Nat) :=
  let groups := run.splitOn '_'
  if groups.all fun g => !g.isEmpty then some (groups.flatten.filterMap Text.decimalDigit?) else none

def ofDigits (ds : List Nat) : Nat := ds.foldl (fun n d => 10 * n + d) 0

def read (s : String) : Except Fault Int :=
  let (factor, body) := sign (s.toList.dropWhile Text.isBlank)
  let run := body.takeWhile isDigitOrBar
  match digits? run with
  | none => .error (.malformed s)
  | some ds =>
    if digitLimit < ds.length then .error (.tooLong ds.length)
    else if (body.drop run.length).all Text.isBlank then .ok (factor * ofDigits ds)
    else .error (.malformed s)

def literalValue (s : String) : Int :=
  match read s with
  | .error _ => 0
  | .ok n => if 9223372036854775807 < n then 0 else n

end LineLang.Numeral
