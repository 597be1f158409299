import LineLang.Text.Decimal
import LineLang.Text.Quoted

/-!
# UTF-8

* `encodeChar`, `encode` : the octets of a character and of a text;
* `decode` : the text of a run of octets, or the first octets that are no character;
* `DecodeFault` : where decoding stopped and why, with its wording.

An ill-formed sequence is reported with the octets that could still have begun a character: a lead octet alone
if the next octet cannot follow it, otherwise the lead and the continuations read so far.
-/

namespace LineLang.Text

def encodeChar (c : Char) : List UInt8 :=
  let n := c.toNat
  let tail (k : Nat) : UInt8 := UInt8.ofNat (0x80 + n / Nat.pow 64 k % 64)
  if n < 0x80 then [UInt8.ofNat n]
  else if n < 0x800 then [UInt8.ofNat (0xc0 + n / 64), tail 0]
  else if n < 0x10000 then [UInt8.ofNat (0xe0 + n / 4096), tail 1, tail 0]
  else [UInt8.ofNat (0xf0 + n / 262144), tail 2, tail 1, tail 0]

def encode (s : String) : List UInt8 :=
  s.toList.flatMap encodeChar

/-- Why octets are no text. -/
inductive DecodeCause where
  /-- The octet can begin no character. -/
  | badStart
  /-- The octet after these cannot continue the character. -/
  | badContinuation
  /-- The octets end within a character. -/
  | unfinished
  deriving DecidableEq, Repr

/-- The first octets of a file that are no character. -/
structure DecodeFault where
  cause : DecodeCause
  /-- How many octets stand before them. -/
  offset : Nat
  first : UInt8
  /-- How many they are. -/
  count : Nat
  deriving DecidableEq, Repr

/-- What the front of a run of octets holds. -/
inductive Front where
  /-- A character and the number of its octets. -/
  | char (c : Char) (count : Nat)
  /-- No character: the cause and the number of octets to blame. -/
  | fault (cause : DecodeCause) (count : Nat)
  deriving DecidableEq, Repr

/-- Whether `b` can continue a character. -/
def isTail (b : Nat) : Bool := 0x80 ≤ b && b < 0xc0

/-- Whether `b` can follow the lead octet `a`: overlong forms, surrogates and numbers beyond U+10FFFF are ruled
out here. -/
def isSecond (a b : Nat) : Bool :=
  isTail b && (a != 0xe0 || 0xa0 ≤ b) && (a != 0xed || b < 0xa0) && (a != 0xf0 || 0x90 ≤ b) &&
    (a != 0xf4 || b < 0x90)

/-- The character that begins with the octet `a`, followed by `bs`. -/
def front (a : Nat) (bs : List Nat) : Front :=
  if a < 0x80 then .char (Char.ofNat a) 1
  else if a < 0xc2 then .fault .badStart 1
  else if a < 0xe0 then
    match bs with
    | [] => .fault .unfinished 1
    | b :: _ =>
      if isTail b then .char (Char.ofNat ((a - 0xc0) * 64 + (b - 0x80))) 2
      else .fault .badContinuation 1
  else if a < 0xf0 then
    match bs with
    | [] => .fault .unfinished 1
    | b :: bs =>
      if isSecond a b then
        match bs with
        | [] => .fault .unfinished 2
        | c :: _ =>
          if isTail c then
            .char (Char.ofNat ((a - 0xe0) * 4096 + (b - 0x80) * 64 + (c - 0x80))) 3
          else .fault .badContinuation 2
      else .fault .badContinuation 1
  else if a < 0xf5 then
    match bs with
    | [] => .fault .unfinished 1
    | b :: bs =>
      if isSecond a b then
        match bs with
        | [] => .fault .unfinished 2
        | c :: bs =>
          if isTail c then
            match bs with
            | [] => .fault .unfinished 3
            | d :: _ =>
              if isTail d then
                .char (Char.ofNat ((a - 0xf0) * 262144 + (b - 0x80) * 4096 + (c - 0x80) * 64
                  + (d - 0x80))) 4
              else .fault .badContinuation 3
          else .fault .badContinuation 2
      else .fault .badContinuation 1
  else .fault .badStart 1

/-- The text of the octets from the `offset`-th on. -/
def decodeFrom (offset : Nat) : List UInt8 → Except DecodeFault (List Char)
  | [] => .ok []
  | a :: bs =>
    match front a.toNat ((bs.take 3).map UInt8.toNat) with
    | .fault cause count => .error ⟨cause, offset, a, count⟩
    | .char c count => do
      let cs ← decodeFrom (offset + count) (bs.drop (count - 1))
      return c :: cs
termination_by bs => bs.length
decreasing_by simp only [List.length_cons, List.length_drop]; omega

def decode (bs : List UInt8) : Except DecodeFault (List Char) :=
  decodeFrom 0 bs

def DecodeCause.message : DecodeCause → String
  | .badStart => "invalid start byte"
  | .badContinuation => "invalid continuation byte"
  | .unfinished => "unexpected end of data"

/-- The wording of a fault: one octet is shown, several are only placed. -/
def DecodeFault.message (e : DecodeFault) : String :=
  if e.count = 1 then
    "'utf-8' codec can't decode byte 0x" ++ String.ofList (hexDigits 2 e.first.toNat) ++
      " in position " ++ Decimal.ofNat e.offset ++ ": " ++ e.cause.message
  else
    "'utf-8' codec can't decode bytes in position " ++ Decimal.ofNat e.offset ++ "-" ++
      Decimal.ofNat (e.offset + e.count - 1) ++ ": " ++ e.cause.message

end LineLang.Text
