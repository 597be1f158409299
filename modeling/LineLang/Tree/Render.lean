import LineLang.Json.Display
import LineLang.Tree.Basic

/-!
# The program text of a tree

Statements end with a line feed, blocks stand in braces, and every binary operation in parentheses. A missing
operand, condition or value leaves no text; where a name, a block or a statement is missing, `None` stands.

* `Node.render` : the text of a tree;
* `Node.shown` : the same, with `None` for a tree that is missing as a whole;
* `Node.tokenLiteral` : the literal of the token that began a tree;
* `NonText`, `NoToken` : a name or literal that is no text cannot be written, a missing tree has no token.
-/

namespace LineLang

/-- A name or the literal of a number is no text but a datum of the given kind. -/
structure NonText where
  kind : String
  deriving DecidableEq, Repr

def NonText.message (e : NonText) : String := "__str__ returned non-string (type " ++ e.kind ++ ")"

structure NoToken where
  deriving DecidableEq, Repr

def NoToken.message (_ : NoToken) : String := "'NoneType' object has no attribute 'token_literal'"

namespace Node

/-- The text that a datum must be. -/
def textOf : Json → Except NonText String
  | .str s => .ok s
  | j => .error ⟨j.kind⟩

/-- The text of a part that is marked when it is missing. -/
def marked (n : Node) (text : Except NonText String) : Except NonText String :=
  if n.isMissing then .ok "None" else text

mutual

/-- The program text of a tree; none for a missing one. -/
def render : Node → Except NonText String
  | .missing => .ok ""
  | .root statements => renderLines statements
  | .assign _ name value => do
    let name ← marked name (render name)
    let value ← render value
    return name ++ " = " ++ value
  | .print _ value => do
    let value ← render value
    return "print " ++ value
  | .expr _ expression => render expression
  | .block _ statements => do
    let lines ← renderLines statements
    return "\x7b\n" ++ lines ++ "\x7d"
  | .cond _ condition yes no => do
    let condition ← render condition
    let yes ← marked yes (render yes)
    let text := "if (" ++ condition ++ ") " ++ yes
    if no.isMissing then return text
    else
      let no ← render no
      return text ++ " else " ++ no
  | .loop _ condition body => do
    let condition ← render condition
    let body ← marked body (render body)
    return "while (" ++ condition ++ ") " ++ body
  | .ident _ name => textOf name
  | .int token _ => textOf token.literal
  | .binary _ left operator right => do
    let left ← render left
    let right ← render right
    return "(" ++ left ++ " " ++ operator.shown ++ " " ++ right ++ ")"
  | .unary _ operator right => do
    let right ← render right
    return "(" ++ operator.shown ++ right ++ ")"

/-- The texts of statements, a line each; a statement without text has no line. -/
def renderLines : List Node → Except NonText String
  | [] => .ok ""
  | s :: ss => do
    let line ← marked s (render s)
    let lines ← renderLines ss
    return if line = "" then lines else line ++ "\n" ++ lines

end

/-- The text of a tree on its own. -/
def shown (n : Node) : Except NonText String := marked n (render n)

mutual

/-- The literal of the token that began a tree; a program has that of its first statement. -/
def tokenLiteral : Node → Except NoToken Json
  | .missing => .error ⟨⟩
  | .root statements => firstLiteral statements
  | .assign token .. => .ok token.literal
  | .print token .. => .ok token.literal
  | .expr token .. => .ok token.literal
  | .block token .. => .ok token.literal
  | .cond token .. => .ok token.literal
  | .loop token .. => .ok token.literal
  | .ident token .. => .ok token.literal
  | .int token .. => .ok token.literal
  | .binary token .. => .ok token.literal
  | .unary token .. => .ok token.literal

/-- The literal of the first of some statements, empty if there is none. -/
def firstLiteral : List Node → Except NoToken Json
  | [] => .ok (.str "")
  | s :: _ => tokenLiteral s

end

end Node

end LineLang
