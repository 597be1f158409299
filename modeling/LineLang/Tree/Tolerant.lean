import LineLang.Lexeme.Scan
import LineLang.Number.Numeral
import LineLang.Tree.Basic

/-!
# The tolerant parser

The tolerant parser makes a tree of every text. It looks at the current lexeme and the one after it, reports
nothing, and leaves a part `missing` where something it expects is not there.

The lexemes from the current one on are a list; behind its end stands `Lexeme.eof`, again and again. A function
of the parser gives a tree and the number of lexemes that it passes: its last lexeme is then the current one, so
the number is one less than that of the lexemes read. Where nothing can be read, nothing is passed.

* `expression p ts` : an expression whose outer operators bind more tightly than `p`;
* `statement ts` : an assignment, a print statement or an expression;
* `statements ts` : the statements up to a closing brace or the end;
* `programOf ts`, `parse s` : the tree of a whole text;
* `Parser` : the same as steps on the list of lexemes.
-/

namespace LineLang.Tolerant

/-- The lexeme at the front. -/
def cur (ts : List Lexeme) : Lexeme := ts.headD .eof

/-- The lexeme behind the one at the front. -/
def peek (ts : List Lexeme) : Lexeme := ts.tail.headD .eof

/-- Whether the lexeme behind the one at the front has kind `k`. -/
def peekIs (k : Kind) (ts : List Lexeme) : Bool := (peek ts).kind = k

/-- One for a line feed behind the current lexeme: a statement passes it too. -/
def lineEnd (ts : List Lexeme) : Nat := if peekIs .newline ts then 1 else 0

/-- How many lexemes stand before the next line feed. -/
def untilNewline (ts : List Lexeme) : Nat := (ts.takeWhile fun t => t.kind != .newline).length

def integer (t : Lexeme) : Node := .int t.token (Numeral.literalValue t.text)

mutual

/-- The expression at the front, up to the first operator that does not bind more tightly than `p`. -/
def expression (p : Int) (ts : List Lexeme) : Node × Nat :=
  match ts with
  | [] => (.missing, 0)
  | t :: rest =>
    match operand t rest with
    | none => (.missing, 0)
    | some (left, k) =>
      let (e, j) := operators p left ((t :: rest).drop k)
      (e, k + j)
termination_by 5 * ts.length + 1

/-- The operand that begins with `t`; none if no operand begins so. -/
def operand (t : Lexeme) (rest : List Lexeme) : Option (Node × Nat) :=
  match t.kind with
  | .ident => some (.ofName t, 0)
  | .num => some (integer t, 0)
  | .lparen => some (group rest)
  | .ifWord => some (choice t rest)
  | .whileWord => some (loop t rest)
  | _ => none
termination_by 5 * rest.length + 4

/-- The operators behind `left`, whose last lexeme is at the front, with their right operands; each groups to the
left. -/
def operators (p : Int) (left : Node) (ts : List Lexeme) : Node × Nat :=
  match ts with
  | _ :: op :: rest =>
    match op.kind.strength? with
    | some q =>
      if p < q then
        let (right, k) := expression q rest
        let (e, j) := operators p (.binary op.token left (.str op.text) right) (rest.drop k)
        (e, 2 + k + j)
      else (left, 0)
    | none => (left, 0)
  | _ => (left, 0)
termination_by 5 * ts.length + 0

/-- The expression behind an opening parenthesis; it is lost if the closing one does not follow. -/
def group (rest : List Lexeme) : Node × Nat :=
  let (e, k) := expression Kind.lowest rest
  if peekIs .rparen (rest.drop k) then (e, k + 2) else (.missing, k + 1)
termination_by 5 * rest.length + 2

/-- What stands behind `if` and `while`: a condition in parentheses and a block. -/
def clause (rest : List Lexeme) : Option (Node × Node) × Nat :=
  match rest with
  | [] => (none, 0)
  | t :: rest =>
    if t.kind = .lparen then
      let (condition, k) := expression Kind.lowest rest
      if peekIs .rparen (rest.drop k) then
        match braces (rest.drop (k + 1)) with
        | some (body, j) => (some (condition, body), k + 3 + j)
        | none => (none, k + 3)
      else (none, k + 2)
    else (none, 0)
termination_by 5 * rest.length + 2

/-- The block behind the current lexeme, if one begins there. -/
def braces (ts : List Lexeme) : Option (Node × Nat) :=
  match ts with
  | _ :: t :: rest =>
    if t.kind = .lbrace then
      let (body, k) := statements rest
      some (.block t.token body, k + 2)
    else none
  | _ => none
termination_by 5 * ts.length + 2

/-- A choice whose first word is `t`. Behind `else` only a block can stand; without one all of it is lost. -/
def choice (t : Lexeme) (rest : List Lexeme) : Node × Nat :=
  match clause rest with
  | (none, k) => (.missing, k)
  | (some (condition, yes), k) =>
    if peekIs .elseWord (rest.drop (k - 1)) then
      match braces (rest.drop k) with
      | some (no, j) => (.cond t.token condition yes no, k + 1 + j)
      | none => (.missing, k + 1)
    else (.cond t.token condition yes .missing, k)
termination_by 5 * rest.length + 3

def loop (t : Lexeme) (rest : List Lexeme) : Node × Nat :=
  match clause rest with
  | (none, k) => (.missing, k)
  | (some (condition, body), k) => (.loop t.token condition body, k)
termination_by 5 * rest.length + 3

/-- The statement at the front. A print statement passes the rest of its line. -/
def statement (ts : List Lexeme) : Node × Nat :=
  match ts with
  | [] => (.expr Lexeme.eof.token .missing, 0)
  | t :: rest =>
    if t.kind = .ident && (cur rest).kind = .assign then
      let (value, k) := expression Kind.lowest rest.tail
      (.assign t.token (.ofName t) value, 2 + k + lineEnd (rest.tail.drop k))
    else if t.kind = .printWord then
      let (value, k) := expression Kind.lowest rest
      (.print t.token value, 1 + k + untilNewline (rest.drop k))
    else
      let (e, k) := expression Kind.lowest (t :: rest)
      (.expr t.token e, k + lineEnd ((t :: rest).drop k))
termination_by 5 * ts.length + 2

def statements (ts : List Lexeme) : List Node × Nat :=
  match ts with
  | [] => ([], 0)
  | t :: rest =>
    if t.kind = .rbrace then ([], 0)
    else
      let (s, k) := statement (t :: rest)
      let (ss, j) := statements (rest.drop k)
      (s :: ss, k + 1 + j)
termination_by 5 * ts.length + 3

end

/-- The statements of a program: a closing brace that opens nothing is a statement of its own. -/
def programOf (ts : List Lexeme) : List Node :=
  match ts with
  | [] => []
  | t :: rest =>
    let (s, k) := statement (t :: rest)
    s :: programOf (rest.drop k)
termination_by ts.length

def parse (s : String) : Node := .root (programOf (lexemes s.toList))

/-! ## Steps of the parser -/

/-- The lexemes from the current one on. -/
abbrev Parser := List Lexeme

namespace Parser

def start (s : String) : Parser := lexemes s.toList

def next (p : Parser) : Parser := p.tail

/-- Passes to the next lexeme if that has kind `k`. -/
def expect (k : Kind) (p : Parser) : Bool × Parser :=
  if peekIs k p then (true, p.next) else (false, p)

/-- What a function of the parser reads, and the parser behind it. -/
def step (read : List Lexeme → Node × Nat) (p : Parser) : Node × Parser :=
  let (n, k) := read p
  (n, p.drop k)

def expression (strength : Int) (p : Parser) : Node × Parser :=
  p.step (Tolerant.expression strength)

def statement (p : Parser) : Node × Parser := p.step Tolerant.statement

def program (p : Parser) : Node × Parser := (.root (programOf p), [])

/-- Reads an assignment to the current lexeme, whatever that is; nothing if no assignment sign follows. -/
def assignment (p : Parser) : Node × Parser :=
  if peekIs .assign p then
    let rest := p.drop 2
    let (value, k) := Tolerant.expression Kind.lowest rest
    (.assign (cur p).token (.ofName (cur p)) value, rest.drop (k + lineEnd (rest.drop k)))
  else (.missing, p)

/-- Reads a print statement, whose first word is the current lexeme, whatever that is. -/
def printing (p : Parser) : Node × Parser :=
  let (value, rest) := p.next.expression Kind.lowest
  (.print (cur p).token value, rest.drop (untilNewline rest))

def expressionStatement (p : Parser) : Node × Parser :=
  let (e, rest) := p.expression Kind.lowest
  (.expr (cur p).token e, rest.drop (lineEnd rest))

/-- Reads a block, whose brace is the current lexeme, whatever that is. -/
def block (p : Parser) : Node × Parser :=
  let (body, k) := statements p.next
  (.block (cur p).token body, p.next.drop k)

def name (p : Parser) : Node × Parser := (.ofName (cur p), p)

def number (p : Parser) : Node × Parser := (integer (cur p), p)

/-- Reads the right operand of the operator at the front, whatever that is; `left` is the other one. -/
def operation (left : Node) (p : Parser) : Node × Parser :=
  let (right, rest) := p.next.expression (cur p).kind.strength
  (.binary (cur p).token left (.str (cur p).text) right, rest)

/-- Reads an expression in parentheses, the first of which is the current lexeme, whatever that is. -/
def parenthesised (p : Parser) : Node × Parser := p.step fun ts => group ts.tail

/-- Reads a choice, whose first word is the current lexeme, whatever that is. -/
def choice (p : Parser) : Node × Parser := p.step fun ts => Tolerant.choice (cur ts) ts.tail

/-- Reads a loop, whose first word is the current lexeme, whatever that is. -/
def loop (p : Parser) : Node × Parser := p.step fun ts => Tolerant.loop (cur ts) ts.tail

end Parser

end LineLang.Tolerant
