import LineLang.Lexeme.Basic

/-!
# Cutting a text into lexemes

Spaces and tabs separate lexemes, a line feed is one. A run of letters or of digits is taken as long as it goes.
A character outside the language is a lexeme of kind `illegal`, so scanning never fails. The NUL character ends
a text wherever it stands.

* `scanFrom c cs` : the lexeme that begins with `c`, and what follows it;
* `scan cs` : the first lexeme of `cs`, `Lexeme.eof` at its end, and what follows it;
* `lexemes cs` : all lexemes before the end;
* `Cursor` : a place in a text from which lexemes are read one by one.
-/

namespace LineLang

def isLetter (c : Char) : Bool := ('a' ≤ c && c ≤ 'z') || ('A' ≤ c && c ≤ 'Z')

def isDigit (c : Char) : Bool := '0' ≤ c && c ≤ '9'

/-- A blank between two lexemes. -/
def isGap (c : Char) : Bool := c = ' ' || c = '\t'

/-- The mark for the end of a text. -/
def nul : Char := '\x00'

namespace Kind

/-- The category of a character that is always a lexeme of its own. -/
def single? (c : Char) : Option Kind :=
  if c = '(' then some .lparen
  else if c = ')' then some .rparen
  else if c = '\x7b' then some .lbrace
  else if c = '\x7d' then some .rbrace
  else if c = ',' then some .comma
  else if c = '+' then some .plus
  else if c = '-' then some .minus
  else if c = '*' then some .star
  else if c = '/' then some .slash
  else if c = '%' then some .percent
  else if c = '\n' then some .newline
  else none

/-- For a character that can begin a pair: the second character, the category of the pair, and that of the
character alone. -/
def pair? (c : Char) : Option (Char × Kind × Kind) :=
  if c = '=' then some ('=', .equal, .assign)
  else if c = '>' then some ('=', .atLeast, .greater)
  else if c = '<' then some ('=', .atMost, .less)
  else if c = '!' then some ('=', .notEqual, .illegal)
  else if c = '&' then some ('&', .both, .illegal)
  else if c = '|' then some ('|', .either, .illegal)
  else none

end Kind

/-- The lexeme that begins with `c` and what follows it in `c :: cs`. -/
def scanFrom (c : Char) (cs : List Char) : Lexeme × List Char :=
  if isLetter c then
    let word := String.ofList (c :: cs.takeWhile isLetter)
    (⟨.ofWord word, word⟩, cs.dropWhile isLetter)
  else if isDigit c then
    (⟨.num, String.ofList (c :: cs.takeWhile isDigit)⟩, cs.dropWhile isDigit)
  else
    match Kind.single? c, Kind.pair? c, cs with
    | some k, _, _ => (⟨k, String.singleton c⟩, cs)
    | none, some (second, two, one), d :: rest =>
      if d = second then (⟨two, String.ofList [c, d]⟩, rest) else (⟨one, String.singleton c⟩, cs)
    | none, some (_, _, one), [] => (⟨one, String.singleton c⟩, cs)
    | none, none, _ => (⟨.illegal, String.singleton c⟩, cs)

theorem scanFrom_length (c : Char) (cs : List Char) : (scanFrom c cs).2.length ≤ cs.length := by
  unfold scanFrom
  split
  · exact (List.dropWhile_suffix _).length_le
  split
  · exact (List.dropWhile_suffix _).length_le
  split
  · exact Nat.le_refl _
  · split <;> simp
  · exact Nat.le_refl _
  · exact Nat.le_refl _

/-- The first lexeme of a text and what follows it. At its end nothing is taken. -/
def scan (cs : List Char) : Lexeme × List Char :=
  match cs.dropWhile isGap with
  | [] => (.eof, [])
  | c :: rest => if c = nul then (.eof, c :: rest) else scanFrom c rest

/-- The lexemes of a text, up to its end. -/
def lexemes (cs : List Char) : List Lexeme :=
  match _h : cs.dropWhile isGap with
  | [] => []
  | c :: rest =>
    if c = nul then []
    else
      let found := scanFrom c rest
      found.1 :: lexemes found.2
termination_by cs.length
decreasing_by
  have h₁ := (List.dropWhile_suffix (l := cs) isGap).length_le
  have h₂ := scanFrom_length c rest
  simp only [_h, List.length_cons] at h₁
  omega

/-- A place in a text: the characters from there on, and how many have been passed. Passing the end still
counts. -/
structure Cursor where
  rest : List Char
  position : Nat
  deriving DecidableEq, Repr

namespace Cursor

def start (s : String) : Cursor := ⟨s.toList, 0⟩

def char (c : Cursor) : Char := c.rest.headD nul

/-- The character behind the one at the cursor. -/
def peek (c : Cursor) : Char := c.rest.tail.headD nul

def advance (c : Cursor) : Cursor := ⟨c.rest.tail, c.position + 1⟩

/-- Passes the characters up to `rest`, a tail of those left. -/
def moveTo (c : Cursor) (rest : List Char) : Cursor :=
  ⟨rest, c.position + (c.rest.length - rest.length)⟩

/-- Passes spaces and tabs. -/
def skipGap (c : Cursor) : Cursor := c.moveTo (c.rest.dropWhile isGap)

def takeWhile (p : Char → Bool) (c : Cursor) : String × Cursor :=
  (String.ofList (c.rest.takeWhile p), c.moveTo (c.rest.dropWhile p))

def next (c : Cursor) : Lexeme × Cursor :=
  let found := scan c.rest
  (found.1, c.moveTo found.2)

end Cursor

end LineLang
