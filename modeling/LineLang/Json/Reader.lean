import LineLang.Json.Basic
import LineLang.Number.Numeral
import LineLang.Text.Position

/-!
# JSON text, read

* `Json.read` : the datum that a text denotes, or the first fault in it;
* `Json.ReadFault` : the faults, with their wording.

Beyond the standard, `NaN`, `Infinity` and `-Infinity` are numbers. A field that appears twice keeps its first
place and its last value. A number without fraction and exponent is an integer and obeys `Numeral.digitLimit`.

The functions below work on the characters that are left, and blame a fault on a place by the number of
characters from there to the end.
-/

namespace LineLang.Json

/-- What a place in a JSON text lacks or has too much of. -/
inductive Mistake where
  | value
  | extra
  | comma
  | colon
  | name
  | unterminated
  | control
  | escape
  | unicodeEscape
  | mark
  deriving DecidableEq, Repr

def Mistake.message : Mistake → String
  | .value => "Expecting value"
  | .extra => "Extra data"
  | .comma => "Expecting ',' delimiter"
  | .colon => "Expecting ':' delimiter"
  | .name => "Expecting property name enclosed in double quotes"
  | .unterminated => "Unterminated string starting at"
  | .control => "Invalid control character at"
  | .escape => "Invalid \\escape"
  | .unicodeEscape => "Invalid \\uXXXX escape"
  | .mark => "Unexpected UTF-8 BOM (decode using utf-8-sig)"

/-- A fault while reading: a mistake, with the number of characters from its place on, or an integer with too
many digits. -/
inductive Stop where
  | mistake (m : Mistake) (left : Nat)
  | numeral (e : Numeral.Fault)
  deriving DecidableEq, Repr

/-- Blames a mistake on the place where `cs` begins. -/
def blame {α : Type} (m : Mistake) (cs : List Char) : Except Stop α :=
  .error (.mistake m cs.length)

def isSpace (c : Char) : Bool := c = ' ' || c = '\t' || c = '\n' || c = '\r'

def skipSpace (cs : List Char) : List Char := cs.dropWhile isSpace

def isDigit (c : Char) : Bool := '0' ≤ c && c ≤ '9'

def hexValue? (c : Char) : Option Nat :=
  if '0' ≤ c && c ≤ '9' then some (c.toNat - 0x30)
  else if 'a' ≤ c && c ≤ 'f' then some (c.toNat - 0x57)
  else if 'A' ≤ c && c ≤ 'F' then some (c.toNat - 0x37)
  else none

/-- The number of four hexadecimal digits. -/
def hexFour? : List Char → Option Nat
  | [a, b, c, d] => do
    let a ← hexValue? a
    let b ← hexValue? b
    let c ← hexValue? c
    let d ← hexValue? d
    return ((a * 16 + b) * 16 + c) * 16 + d
  | _ => none

/-- The character of a letter behind a backslash. -/
def unescape? (c : Char) : Option Char :=
  if c = '\x22' || c = '\\' || c = '/' then some c
  else if c = 'b' then some '\x08'
  else if c = 'f' then some '\x0c'
  else if c = 'n' then some '\n'
  else if c = 'r' then some '\r'
  else if c = 't' then some '\t'
  else none

/-- The first half of a surrogate pair. -/
def isHigh (n : Nat) : Bool := 0xd800 ≤ n && n < 0xdc00

/-- The second half of a surrogate pair. -/
def isLow (n : Nat) : Bool := 0xdc00 ≤ n && n < 0xe000

/-- The character number `n`; a lone surrogate, which is no character, is replaced. -/
def charOf (n : Nat) : Char := if isHigh n || isLow n then '\ufffd' else Char.ofNat n

/-- What stands behind `\u`, from the letter on: the character and how many of the characters belong to it. Four
digits, and in a pair the second escape, must not be the last characters of the text. -/
def unicodeEscape (cs : List Char) : Except Stop (Char × Nat) :=
  let body := cs.drop 1
  match hexFour? (body.take 4), body.drop 4 with
  | none, _ => blame .unicodeEscape cs
  | some _, [] => blame .unicodeEscape cs
  | some high, next =>
    match next with
    | '\\' :: 'u' :: more =>
      if isHigh high && 4 < more.length then
        match hexFour? (more.take 4) with
        | none => blame .unicodeEscape ('u' :: more)
        | some low =>
          if isLow low then
            .ok (Char.ofNat (0x10000 + (high - 0xd800) * 0x400 + (low - 0xdc00)), 11)
          else .ok (charOf high, 5)
      else .ok (charOf high, 5)
    | _ => .ok (charOf high, 5)

/-- The rest of a text whose opening quote has been read; `start` is the number of characters from that quote
on. -/
def textBody (start : Nat) : List Char → Except Stop (List Char × List Char)
  | [] => .error (.mistake .unterminated start)
  | c :: cs =>
    if c = '\x22' then .ok ([], cs)
    else if c = '\\' then
      match cs with
      | [] => .error (.mistake .unterminated start)
      | e :: rest =>
        if e = 'u' then do
          let (x, used) ← unicodeEscape cs
          let (xs, rest) ← textBody start (rest.drop (used - 1))
          return (x :: xs, rest)
        else
          match unescape? e with
          | none => blame .escape (c :: cs)
          | some x => do
            let (xs, rest) ← textBody start rest
            return (x :: xs, rest)
    else if c.toNat < 0x20 then blame .control (c :: cs)
    else do
      let (xs, rest) ← textBody start cs
      return (c :: xs, rest)
termination_by cs => cs.length
decreasing_by all_goals simp_wf; try omega

/-- The fraction at the front: its digits, none if there is no fraction, and what follows. -/
def fraction : List Char → List Char × List Char
  | '.' :: d :: cs =>
    if isDigit d then (d :: cs.takeWhile isDigit, cs.dropWhile isDigit) else ([], '.' :: d :: cs)
  | cs => ([], cs)

def exponentSign : List Char → Bool × List Char
  | '-' :: cs => (true, cs)
  | '+' :: cs => (false, cs)
  | cs => (false, cs)

/-- The exponent at the front and what follows. -/
def exponent (cs : List Char) : Option Int × List Char :=
  match cs with
  | e :: rest =>
    if e = 'e' || e = 'E' then
      let (negative, rest) := exponentSign rest
      match rest.takeWhile isDigit with
      | [] => (none, cs)
      | ds =>
        let n : Int := Text.Decimal.valueOf ds
        (some (if negative then -n else n), rest.dropWhile isDigit)
    else (none, cs)
  | [] => (none, cs)

/-- The digits of the integer part at the front, a zero alone or any others, and what follows. -/
def integerPart? : List Char → Option (List Char × List Char)
  | '0' :: cs => some (['0'], cs)
  | c :: cs => if isDigit c then some (c :: cs.takeWhile isDigit, cs.dropWhile isDigit) else none
  | [] => none

def number (cs : List Char) : Except Stop (Number × List Char) :=
  let (negative, body) := match cs with
    | '-' :: rest => (true, rest)
    | rest => (false, rest)
  match integerPart? body with
  | none => blame .value cs
  | some (ds, rest) =>
    let (fs, rest) := fraction rest
    let (power, rest) := exponent rest
    if fs.isEmpty && power.isNone then
      if Numeral.digitLimit < ds.length then .error (.numeral (.tooLong ds.length))
      else
        let n : Int := Text.Decimal.valueOf ds
        .ok (.int (if negative then -n else n), rest)
    else
      .ok (.real (Binary64.ofDecimal negative (Text.Decimal.valueOf (ds ++ fs))
        (power.getD 0 - fs.length)), rest)

/-- The words of the language, with what they denote. -/
def words : List (List Char × Json) :=
  [("null".toList, .null), ("true".toList, .bool true), ("false".toList, .bool false),
   ("NaN".toList, .num (.real .nan)), ("Infinity".toList, .num (.real (.infinite false))),
   ("-Infinity".toList, .num (.real (.infinite true)))]

def word? (cs : List Char) : Option (Json × List Char) :=
  words.findSome? fun (w, j) => if w.isPrefixOf cs then some (j, cs.drop w.length) else none

mutual

/-- The datum at the front. Each call from one of the three functions to another takes one from `fuel`, and
between two calls of `value` a character is read, so twice the length of the text is never used up. -/
def value : (fuel : Nat) → List Char → Except Stop (Json × List Char)
  | 0, cs => blame .value cs
  | fuel + 1, cs =>
    match cs with
    | [] => blame .value cs
    | c :: rest =>
      if c = '\x22' then do
        let (s, rest) ← textBody cs.length rest
        return (.str (String.ofList s), rest)
      else if c = '[' then
        match skipSpace rest with
        | ']' :: rest => .ok (.arr [], rest)
        | rest => do
          let (xs, rest) ← items fuel rest
          return (.arr xs, rest)
      else if c = '\x7b' then
        match skipSpace rest with
        | '\x7d' :: rest => .ok (.obj [], rest)
        | rest => do
          let (fs, rest) ← fields fuel [] rest
          return (.obj fs, rest)
      else
        match word? cs with
        | some found => .ok found
        | none => do
          let (n, rest) ← number cs
          return (.num n, rest)

/-- The items of a list, up to its closing bracket. -/
def items : (fuel : Nat) → List Char → Except Stop (List Json × List Char)
  | 0, cs => blame .value cs
  | fuel + 1, cs => do
    let (x, rest) ← value fuel cs
    match skipSpace rest with
    | ']' :: rest => return ([x], rest)
    | ',' :: rest =>
      let (xs, rest) ← items fuel (skipSpace rest)
      return (x :: xs, rest)
    | rest => blame .comma rest

/-- The fields of an object, up to its closing brace, added to those before them. -/
def fields : (fuel : Nat) → List (String × Json) → List Char →
    Except Stop (List (String × Json) × List Char)
  | 0, _, cs => blame .value cs
  | fuel + 1, before, cs =>
    match cs with
    | '\x22' :: rest => do
      let (name, rest) ← textBody cs.length rest
      match skipSpace rest with
      | ':' :: rest =>
        let (x, rest) ← value fuel (skipSpace rest)
        let before := insert (String.ofList name) x before
        match skipSpace rest with
        | '\x7d' :: rest => return (before, rest)
        | ',' :: rest => fields fuel before (skipSpace rest)
        | rest => blame .comma rest
      | rest => blame .colon rest
    | _ => blame .name cs

end

/-- A fault of a whole text: a mistake and where it stands, or an integer with too many digits. -/
inductive ReadFault where
  | mistake (m : Mistake) (offset : Nat) (place : Text.Position)
  | numeral (e : Numeral.Fault)
  deriving DecidableEq, Repr

def ReadFault.message : ReadFault → String
  | .mistake m offset place =>
    m.message ++ ": line " ++ Text.Decimal.ofNat place.line ++ " column " ++
      Text.Decimal.ofNat place.column ++ " (char " ++ Text.Decimal.ofNat offset ++ ")"
  | .numeral e => e.message

/-- The datum that makes up a text, blanks around it apart. -/
def document (cs : List Char) : Except Stop Json := do
  match cs with
  | '\ufeff' :: _ => blame .mark cs
  | _ =>
    let (j, rest) ← value (2 * cs.length + 2) (skipSpace cs)
    match skipSpace rest with
    | [] => return j
    | rest => blame .extra rest

def read (cs : List Char) : Except ReadFault Json :=
  match document cs with
  | .ok j => .ok j
  | .error (.mistake m left) =>
    let offset := cs.length - left
    .error (.mistake m offset (Text.Position.start.after (cs.take offset)))
  | .error (.numeral e) => .error (.numeral e)

end LineLang.Json
