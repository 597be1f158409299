import LineLang.Lexeme.Scan
import LineLang.Text.Position

/-!
# Terminals of the strict grammar

The strict grammar is read from terminals: words, numbers, symbols, and line ends. A line end is a line feed with
all blanks and line feeds after it. Spaces and tabs elsewhere are skipped. A comma is no terminal.

* `symbols` : the symbols, those of two characters first, so that the longest one is found;
* `terminal? c cs` : the terminal at the front of `c :: cs`;
* `Placed` : a terminal with the place where it starts;
* `Scanned`, `scan` : the terminals of a text, up to its end or to a character that begins none.
-/

namespace LineLang.Strict

def symbols : List (List Char × Kind) :=
  [(['=', '='], .equal), (['!', '='], .notEqual), (['<', '='], .atMost), (['>', '='], .atLeast),
   (['&', '&'], .both), (['|', '|'], .either), (['<'], .less), (['>'], .greater), (['+'], .plus),
   (['-'], .minus), (['*'], .star), (['/'], .slash), (['%'], .percent), (['='], .assign),
   (['('], .lparen), ([')'], .rparen), (['\x7b'], .lbrace), (['\x7d'], .rbrace)]

/-- A character that can follow the line feed of a line end. -/
def isLayout (c : Char) : Bool := c = '\n' || isGap c

def symbol? (cs : List Char) : Option Lexeme :=
  symbols.findSome? fun (spelling, kind) =>
    if spelling.isPrefixOf cs then some ⟨kind, String.ofList spelling⟩ else none

def terminal? (c : Char) (cs : List Char) : Option Lexeme :=
  if isLetter c then
    let word := String.ofList (c :: cs.takeWhile isLetter)
    some ⟨.ofWord word, word⟩
  else if isDigit c then some ⟨.num, String.ofList (c :: cs.takeWhile isDigit)⟩
  else if c = '\n' then some ⟨.newline, String.ofList (c :: cs.takeWhile isLayout)⟩
  else symbol? (c :: cs)

structure Placed where
  lexeme : Lexeme
  place : Text.Position
  deriving DecidableEq, Repr

abbrev Placed.kind (t : Placed) : Kind := t.lexeme.kind

/-- Where scanning stopped. -/
inductive Ending where
  /-- At the end of the text. -/
  | complete
  /-- At a character that begins no terminal. -/
  | strange (c : Char) (place : Text.Position)
  deriving DecidableEq, Repr

structure Scanned where
  terminals : List Placed
  ending : Ending
  deriving DecidableEq, Repr

/-- The terminals of the characters that start at `place`. A terminal has at least one character. -/
def scanFrom (place : Text.Position) (cs : List Char) : Scanned :=
  match _h : cs.dropWhile isGap with
  | [] => ⟨[], .complete⟩
  | c :: rest =>
    let place := place.after (cs.takeWhile isGap)
    match terminal? c rest with
    | none => ⟨[], .strange c place⟩
    | some t =>
      let spelling := t.text.toList
      let more := scanFrom (place.after spelling) (rest.drop (spelling.length - 1))
      ⟨⟨t, place⟩ :: more.terminals, more.ending⟩
termination_by cs.length
decreasing_by
  have h := (List.dropWhile_suffix (l := cs) isGap).length_le
  simp only [_h, List.length_cons] at h
  simp only [List.length_drop]
  omega

def scan (cs : List Char) : Scanned := scanFrom .start cs

end LineLang.Strict
