import LineLang.Number.Numeral
import LineLang.Strict.Terminal
import LineLang.Tree.Basic

/-!
# The strict parser

The strict parser accepts exactly the programs of this grammar, in which `NL` is a line end:

* a program is `NL? (statement NL)* statement?`, and a block the same in braces;
* a statement is `name = expression`, `print expression` or `expression`;
* an expression of tier `n + 1` is one or more of tier `n`, with operators of tier `n + 1` between them that
  group to the left; tier 0 holds names, numbers, expressions in parentheses, `if (expression) block` with an
  optional `else block`, and `while (expression) block`.

It stops at the first terminal that cannot follow those before it.

* `tier? k` : the tier of an operator; `topTier` is that of a whole expression;
* `expression`, `statement`, `lines` : the parts, with the number of terminals they take, or the terminals from
  the one that does not fit on;
* `parse s` : the tree of a text;
* `SyntaxFault` : the first fault of a text and where it stands, with its wording.
-/

namespace LineLang.Strict

/-- The tier of a binary operator: operators of a lower tier bind more tightly. -/
def tier? : Kind → Option Nat
  | .star | .slash | .percent => some 1
  | .plus | .minus => some 2
  | .less | .greater | .atMost | .atLeast => some 3
  | .equal | .notEqual => some 4
  | .either => some 5
  | .both => some 6
  | _ => none

def topTier : Nat := 6

/-- The leftmost token of an expression, parentheses apart. -/
def firstToken : Node → Token
  | .binary token .missing _ _ => token
  | .binary _ left _ _ => firstToken left
  | .assign token .. | .print token .. | .expr token .. | .block token .. | .cond token .. | .loop token ..
  | .ident token .. | .int token .. | .unary token .. => token
  | .missing | .root _ => Lexeme.eof.token

/-- The terminals from the first one that does not fit on. -/
abbrev Rest := List Placed

/-- Whether the terminal at the front has kind `k`. -/
def startsWith (k : Kind) (ts : List Placed) : Bool :=
  match ts with
  | [] => false
  | t :: _ => t.kind = k

mutual

/-- The expression of a tier at the front. -/
def expression (tier : Nat) (ts : List Placed) : Except Rest (Node × Nat) :=
  match tier with
  | 0 => atom ts
  | tier + 1 => do
    let (left, k) ← expression tier ts
    let (e, j) ← operators tier left (ts.drop k)
    return (e, k + j)
termination_by (ts.length, 3 * tier + 2)
decreasing_by all_goals exact Prod.lex_def.2 (by grind)

/-- The operators of tier `tier + 1` behind `left`, with their right operands. -/
def operators (tier : Nat) (left : Node) (ts : List Placed) : Except Rest (Node × Nat) :=
  match ts with
  | [] => .ok (left, 0)
  | op :: rest =>
    if tier? op.kind = some (tier + 1) then do
      let (right, k) ← expression tier rest
      let (e, j) ← operators tier
        (.binary op.lexeme.token left (.str op.lexeme.text) right) (rest.drop k)
      return (e, 1 + k + j)
    else .ok (left, 0)
termination_by (ts.length, 3 * tier + 3)
decreasing_by all_goals exact Prod.lex_def.2 (by grind)

/-- The expression of tier 0 at the front. -/
def atom (ts : List Placed) : Except Rest (Node × Nat) :=
  match ts with
  | [] => .error []
  | t :: rest =>
    match t.kind with
    | .ident => .ok (.ofName t.lexeme, 1)
    | .num => .ok (.int t.lexeme.token (Numeral.literalValue t.lexeme.text), 1)
    | .lparen => parenthesised (t :: rest)
    | .ifWord => do
      let (condition, k) ← parenthesised rest
      let (yes, j) ← block (rest.drop k)
      if startsWith .elseWord (rest.drop (k + j)) then
        let (no, i) ← block (rest.drop (k + j + 1))
        return (.cond t.lexeme.token condition yes no, 2 + k + j + i)
      else return (.cond t.lexeme.token condition yes .missing, 1 + k + j)
    | .whileWord => do
      let (condition, k) ← parenthesised rest
      let (body, j) ← block (rest.drop k)
      return (.loop t.lexeme.token condition body, 1 + k + j)
    | _ => .error (t :: rest)
termination_by (ts.length, 1)

def parenthesised (ts : List Placed) : Except Rest (Node × Nat) :=
  match ts with
  | [] => .error []
  | t :: rest =>
    if t.kind = .lparen then do
      let (e, k) ← expression topTier rest
      if startsWith .rparen (rest.drop k) then return (e, k + 2) else throw (rest.drop k)
    else .error (t :: rest)
termination_by (ts.length, 0)

def block (ts : List Placed) : Except Rest (Node × Nat) :=
  match ts with
  | [] => .error []
  | t :: rest =>
    if t.kind = .lbrace then do
      let start := if startsWith .newline rest then 1 else 0
      let (body, k) ← lines (rest.drop start)
      let after := rest.drop (start + k)
      if startsWith .rbrace after then return (.block t.lexeme.token body, start + k + 2)
      else throw after
    else .error (t :: rest)
termination_by (ts.length, 0)

def statement (ts : List Placed) : Except Rest (Node × Nat) :=
  match ts with
  | [] => .error []
  | t :: rest =>
    if t.kind = .ident && startsWith .assign rest then do
      let (value, k) ← expression topTier (rest.drop 1)
      return (.assign t.lexeme.token (.ofName t.lexeme) value, k + 2)
    else if t.kind = .printWord then do
      let (value, k) ← expression topTier rest
      return (.print t.lexeme.token value, k + 1)
    else do
      let (e, k) ← expression topTier (t :: rest)
      return (.expr (firstToken e) e, k)
termination_by (ts.length, 3 * topTier + 3)

/-- The statements at the front, with line ends between them and perhaps one behind them, up to a closing brace
or the end. -/
def lines (ts : List Placed) : Except Rest (List Node × Nat) :=
  match ts with
  | [] => .ok ([], 0)
  | t :: rest =>
    if t.kind = .rbrace then .ok ([], 0)
    else do
      let (s, k) ← statement (t :: rest)
      let after := (t :: rest).drop k
      if startsWith .newline after then
        let (ss, j) ← lines (after.drop 1)
        return (s :: ss, k + 1 + j)
      else return ([s], k)
termination_by (ts.length, 3 * topTier + 4)

end

/-! ## Whole texts -/

/-- What does not fit. -/
inductive SyntaxCause where
  /-- A character that begins no terminal. -/
  | character (c : Char)
  /-- A terminal that cannot follow those before it. -/
  | terminal (text : String)
  | endOfText
  deriving DecidableEq, Repr

/-- The first thing in a text that does not fit, and its place; the end of the text is placed where the last
terminal starts. -/
structure SyntaxFault where
  cause : SyntaxCause
  place : Text.Position
  deriving DecidableEq, Repr

def SyntaxCause.message : SyntaxCause → String
  | .character c => "unexpected character " ++ Text.quoted (String.singleton c)
  | .terminal text => "unexpected " ++ Text.quoted text
  | .endOfText => "unexpected end of input"

def SyntaxFault.message (e : SyntaxFault) : String :=
  e.cause.message ++ " at " ++ Text.Decimal.ofNat e.place.line ++ ":" ++
    Text.Decimal.ofNat e.place.column

/-- The fault of a text whose terminals fit up to `rest`. -/
def Scanned.faultAt (scanned : Scanned) (rest : Rest) : SyntaxFault :=
  match rest, scanned.ending with
  | t :: _, _ => ⟨.terminal t.lexeme.text, t.place⟩
  | [], .strange c place => ⟨.character c, place⟩
  | [], .complete => ⟨.endOfText, (scanned.terminals.getLast?.map Placed.place).getD .start⟩

/-- The statements of a program, all of whose terminals have to fit. -/
def program (ts : List Placed) : Except Rest (List Node) := do
  let start := if startsWith .newline ts then 1 else 0
  let (ss, k) ← lines (ts.drop start)
  match ts.drop (start + k) with
  | [] => return ss
  | rest => throw rest

def parse (s : String) : Except SyntaxFault Node :=
  let scanned := scan s.toList
  match program scanned.terminals, scanned.ending with
  | .ok ss, .complete => .ok (.root ss)
  | .ok _, .strange .. => .error (scanned.faultAt [])
  | .error rest, _ => .error (scanned.faultAt rest)

end LineLang.Strict
