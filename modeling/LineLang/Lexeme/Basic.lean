import LineLang.Text.Quoted

/-!
# Lexemes

* `Kind` : the lexical categories, with the names `Kind.name` under which trees store them;
* `Kind.ofWord` : the keyword that a run of letters spells, or a plain identifier;
* `Kind.strength?` : how tightly a binary operator binds. `||` binds tighter than `&&`;
* `Lexeme` : a category and the characters it was read from.
-/

namespace LineLang

inductive Kind where
  | lparen | rparen | lbrace | rbrace | comma
  | plus | minus | star | slash | percent
  | assign | equal | notEqual | both | either | less | greater | atMost | atLeast
  | newline
  | ident | num
  | printWord | ifWord | elseWord | whileWord
  | illegal | eof
  deriving DecidableEq, Repr

namespace Kind

/-- The name of a category in stored trees and in token listings. -/
def name : Kind → String
  | .lparen => "LPAREN"
  | .rparen => "RPAREN"
  | .lbrace => "LBRACE"
  | .rbrace => "RBRACE"
  | .comma => "COMMA"
  | .plus => "PLUS"
  | .minus => "MINUS"
  | .star => "ASTERISK"
  | .slash => "SLASH"
  | .percent => "PERCENT"
  | .assign => "ASSIGN"
  | .equal => "EQ"
  | .notEqual => "NOT_EQ"
  | .both => "AND"
  | .either => "OR"
  | .less => "LT"
  | .greater => "GT"
  | .atMost => "LT_EQ"
  | .atLeast => "GT_EQ"
  | .newline => "NEWLINE"
  | .ident => "IDENT"
  | .num => "NUM"
  | .printWord => "PRINT"
  | .ifWord => "IF"
  | .elseWord => "ELSE"
  | .whileWord => "WHILE"
  | .illegal => "ILLEGAL"
  | .eof => "EOF"

def all : List Kind :=
  [.lparen, .rparen, .lbrace, .rbrace, .comma, .plus, .minus, .star, .slash, .percent, .assign, .equal,
   .notEqual, .both, .either, .less, .greater, .atMost, .atLeast, .newline, .ident, .num, .printWord,
   .ifWord, .elseWord, .whileWord, .illegal, .eof]

def ofName? (s : String) : Option Kind := all.find? fun k => k.name = s

theorem ofName?_name (k : Kind) : ofName? k.name = some k := by
  cases k <;> decide

def ofWord (s : String) : Kind :=
  if s = "print" then .printWord
  else if s = "if" then .ifWord
  else if s = "else" then .elseWord
  else if s = "while" then .whileWord
  else .ident

def strength? : Kind → Option Int
  | .both => some 2
  | .either => some 3
  | .equal | .notEqual => some 4
  | .less | .greater | .atMost | .atLeast => some 5
  | .plus | .minus => some 6
  | .star | .slash | .percent => some 7
  | _ => none

/-- The strength below that of every operator. -/
def lowest : Int := 1

/-- The strength of an operator, the lowest for any other category. -/
def strength (k : Kind) : Int := k.strength?.getD lowest

end Kind

structure Lexeme where
  kind : Kind
  text : String
  deriving DecidableEq, Repr

namespace Lexeme

/-- What stands behind the last lexeme of a text. -/
def eof : Lexeme := ⟨.eof, ""⟩

def listed (t : Lexeme) : String :=
  "Token(" ++ t.kind.name ++ ", " ++ Text.quoted t.text ++ ")"

end Lexeme

end LineLang
