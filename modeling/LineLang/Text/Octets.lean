import LineLang.Text.Utf8

/-!
# Octets that may be text

The words of a command line and the names of files are octets, which need not encode a text.

* `Octets` : any octets. A text stands for its own where they are wanted;
* `signs` : the characters that octets encode, and the octets between them that are part of none;
* `shown`, `quotedOctets` : octets in a diagnostic, where those that are part of no character are numbered;
* `EncodeFault`, `encodeFault?` : the first octets that are no text, where a text has to be printed.
-/

namespace LineLang

abbrev Octets := List UInt8

instance : Coe String Octets := ⟨Text.encode⟩

namespace Octet

def newline : UInt8 := 0x0a
def space : UInt8 := 0x20
def dash : UInt8 := 0x2d
def dot : UInt8 := 0x2e
def slash : UInt8 := 0x2f
def equals : UInt8 := 0x3d

end Octet

namespace Text

/-- A character, or an octet that is part of none. -/
inductive Sign where
  | char (c : Char)
  | octet (b : UInt8)
  deriving DecidableEq, Repr

def Sign.isChar : Sign → Bool
  | .char _ => true
  | .octet _ => false

/-- An octet that is part of no character is shown as the surrogate that stands for it. -/
def surrogate (b : UInt8) : List Char := '\\' :: 'u' :: 'd' :: 'c' :: hexDigits 2 b.toNat

def signs : Octets → List Sign
  | [] => []
  | a :: bs =>
    match front a.toNat ((bs.take 3).map UInt8.toNat) with
    | .char c count => .char c :: signs (bs.drop (count - 1))
    | .fault _ _ => .octet a :: signs bs
termination_by bs => bs.length
decreasing_by all_goals simp only [List.length_cons, List.length_drop]; omega

def shown (o : Octets) : String :=
  String.ofList ((signs o).flatMap fun
    | .char c => [c]
    | .octet b => surrogate b)

/-- The characters among the signs decide on the mark. -/
def quotedOctets (o : Octets) : String :=
  let q := quoteMark ((signs o).filterMap fun
    | .char c => some c
    | .octet _ => none)
  String.ofList (q :: ((signs o).flatMap (fun
    | .char c => escaped q c
    | .octet b => surrogate b) ++ [q]))

/-- The first octets that are part of no character: how many signs stand before them, and how many they are. -/
structure EncodeFault where
  offset : Nat
  first : UInt8
  count : Nat
  deriving DecidableEq, Repr

def encodeFault? (o : Octets) : Option EncodeFault :=
  match (signs o).dropWhile Sign.isChar with
  | .octet b :: rest =>
    some ⟨((signs o).takeWhile Sign.isChar).length, b, 1 + (rest.takeWhile fun s => !s.isChar).length⟩
  | _ => none

def EncodeFault.message (e : EncodeFault) : String :=
  if e.count = 1 then
    "'utf-8' codec can't encode character '" ++ String.ofList (surrogate e.first) ++ "' in position " ++
      Decimal.ofNat e.offset ++ ": surrogates not allowed"
  else
    "'utf-8' codec can't encode characters in position " ++ Decimal.ofNat e.offset ++ "-" ++
      Decimal.ofNat (e.offset + e.count - 1) ++ ": surrogates not allowed"

end Text

end LineLang
