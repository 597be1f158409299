import LineLang.Json.Basic
import LineLang.Lexeme.Basic

/-!
# Syntax trees

* `Token` : the lexeme that a node remembers. A tree from a file may hold any datum as its literal;
* `Node` : a tree, or `Node.missing` where a part is absent. Nothing is assumed about which kinds of node stand
  where: a tree from a file may nest them in any way, and its names and operators may be any datum;
* `Node.kind` : the name of a node's kind;
* equality of trees is decided, `Node.beq_iff`.
-/

namespace LineLang

/-- The lexeme that began a node, or a stored description of one. -/
structure Token where
  kind : Kind
  literal : Json
  deriving DecidableEq, Repr

/-- The token that remembers a lexeme. -/
def Lexeme.token (t : Lexeme) : Token := ⟨t.kind, .str t.text⟩

inductive Node where
  /-- An absent part. -/
  | missing
  /-- A program. -/
  | root (statements : List Node)
  /-- An assignment of a value to a name. -/
  | assign (token : Token) (name value : Node)
  | print (token : Token) (value : Node)
  /-- An expression in the place of a statement. -/
  | expr (token : Token) (expression : Node)
  /-- Statements in braces. -/
  | block (token : Token) (statements : List Node)
  /-- A choice between two branches; the second may be missing. -/
  | cond (token : Token) (condition yes no : Node)
  | loop (token : Token) (condition body : Node)
  /-- The use of a name. -/
  | ident (token : Token) (name : Json)
  | int (token : Token) (value : Int)
  /-- A binary operator between two operands. -/
  | binary (token : Token) (left : Node) (operator : Json) (right : Node)
  /-- An operator before its operand. -/
  | unary (token : Token) (operator : Json) (right : Node)
  deriving Repr

namespace Node

/-- The name of a node's kind, in stored trees and in diagnostics. -/
def kind : Node → String
  | .missing => "NoneType"
  | .root _ => "Root"
  | .assign .. => "AssignStatement"
  | .print .. => "PrintStatement"
  | .expr .. => "ExpressionStatement"
  | .block .. => "BlockStatement"
  | .cond .. => "IfExpression"
  | .loop .. => "WhileExpression"
  | .ident .. => "Identifier"
  | .int .. => "IntegerLiteral"
  | .binary .. => "InfixExpression"
  | .unary .. => "PrefixExpression"

def isMissing : Node → Bool
  | .missing => true
  | _ => false

def ofName (t : Lexeme) : Node := .ident t.token (.str t.text)

/-! ## Equality -/

mutual

/-- Equality of trees, decided. -/
def beq : Node → Node → Bool
  | .missing, .missing => true
  | .root xs, .root ys => beqList xs ys
  | .assign t a b, .assign u c d => t == u && beq a c && beq b d
  | .print t a, .print u b => t == u && beq a b
  | .expr t a, .expr u b => t == u && beq a b
  | .block t xs, .block u ys => t == u && beqList xs ys
  | .cond t a b c, .cond u d e f => t == u && beq a d && beq b e && beq c f
  | .loop t a b, .loop u c d => t == u && beq a c && beq b d
  | .ident t a, .ident u b => t == u && a == b
  | .int t a, .int u b => t == u && a == b
  | .binary t a o b, .binary u c p d => t == u && beq a c && o == p && beq b d
  | .unary t o a, .unary u p b => t == u && o == p && beq a b
  | _, _ => false

def beqList : List Node → List Node → Bool
  | [], [] => true
  | x :: xs, y :: ys => beq x y && beqList xs ys
  | _, _ => false

end

mutual

theorem beq_iff : ∀ a b : Node, beq a b = true ↔ a = b
  | .missing, b => by cases b <;> simp [beq]
  | .root xs, b => by cases b <;> simp [beq, beqList_iff xs]
  | .assign _ x y, b => by cases b <;> simp [beq, beq_iff x, beq_iff y, and_assoc]
  | .print _ x, b => by cases b <;> simp [beq, beq_iff x]
  | .expr _ x, b => by cases b <;> simp [beq, beq_iff x]
  | .block _ xs, b => by cases b <;> simp [beq, beqList_iff xs]
  | .cond _ x y z, b => by cases b <;> simp [beq, beq_iff x, beq_iff y, beq_iff z, and_assoc]
  | .loop _ x y, b => by cases b <;> simp [beq, beq_iff x, beq_iff y, and_assoc]
  | .ident _ _, b => by cases b <;> simp [beq]
  | .int _ _, b => by cases b <;> simp [beq]
  | .binary _ x _ y, b => by cases b <;> simp [beq, beq_iff x, beq_iff y, and_assoc]
  | .unary _ _ x, b => by cases b <;> simp [beq, beq_iff x, and_assoc]

theorem beqList_iff : ∀ xs ys : List Node, beqList xs ys = true ↔ xs = ys
  | [], ys => by cases ys <;> simp [beqList]
  | x :: xs, ys => by cases ys <;> simp [beqList, beq_iff x, beqList_iff xs]

end

instance : DecidableEq Node := fun a b => decidable_of_iff (beq a b = true) (beq_iff a b)

end Node

end LineLang
