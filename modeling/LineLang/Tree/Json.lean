import LineLang.Json.Display
import LineLang.Number.Numeral
import LineLang.Tree.Basic

/-!
# Trees as JSON data

* `Node.toJson` : a tree as a datum. Every field is written, a missing part as `null`;
* `Node.ofJson` : the tree that a datum stores. Parts that may be missing may be left out;
* `LoadFault` : why a datum stores no tree. Faults are found in the order kind, token, fields in the order in
  which they are written;
* `Refusal` : the sorts of faults.

Loading works from the leaves up: each field of an object is first read in every way in which it could be meant,
and the kind of the object then picks the reading it needs.
-/

namespace LineLang

inductive LoadFault where
  /-- It is neither `null` nor an object. -/
  | notObject
  /-- Its kind is none of a tree's. -/
  | unknownKind (kind : Json)
  | noField (name : String)
  /-- The token's kind, a plain datum, is no category. -/
  | unknownCategory (kind : Json)
  /-- The token's kind is a list or an object. -/
  | compoundCategory (kind : Json)
  /-- The token is no object. -/
  | badToken (token : Json)
  /-- The statements are no sequence. -/
  | noSequence (statements : Json)
  | noNumber (value : Json)
  /-- The value is a text but no numeral. -/
  | numeral (e : Numeral.Fault)
  /-- The value is not a number in the arithmetic sense. -/
  | notANumber
  | infinite
  deriving DecidableEq, Repr

def LoadFault.message : LoadFault → String
  | .notObject => "Invalid AST object"
  | .unknownKind kind => "Unknown AST node type: " ++ kind.shown
  | .noField name => Text.quoted name
  | .unknownCategory kind => kind.literal
  | .compoundCategory kind => "unhashable type: '" ++ kind.kind ++ "'"
  | .badToken (.arr _) => "list indices must be integers or slices, not str"
  | .badToken (.str _) => "string indices must be integers, not 'str'"
  | .badToken token => "'" ++ token.kind ++ "' object is not subscriptable"
  | .noSequence statements => "'" ++ statements.kind ++ "' object is not iterable"
  | .noNumber value =>
    "int() argument must be a string, a bytes-like object or a real number, not '" ++ value.kind ++ "'"
  | .numeral e => e.message
  | .notANumber => "cannot convert float NaN to integer"
  | .infinite => "cannot convert float infinity to integer"

inductive Refusal where
  /-- A datum is of a kind that cannot stand in its place. -/
  | kind
  /-- A datum is of the right kind, but its value cannot stand in its place. -/
  | value
  /-- A name is looked up that is not there. -/
  | key
  /-- A number is too large. -/
  | overflow
  deriving DecidableEq, Repr

/-- How a fault refuses a datum. -/
def LoadFault.refusal : LoadFault → Refusal
  | .notObject | .compoundCategory _ | .badToken _ | .noSequence _ | .noNumber _ => .kind
  | .unknownKind _ | .numeral _ | .notANumber => .value
  | .noField _ | .unknownCategory _ => .key
  | .infinite => .overflow

/-! ## Writing -/

def Token.toJson (t : Token) : Json := .obj [("type", .str t.kind.name), ("literal", t.literal)]

namespace Node

mutual

def toJson : Node → Json
  | .missing => .null
  | .root statements => .obj [("type", .str "Root"), ("statements", .arr (toJsonList statements))]
  | .assign token name value =>
    .obj [("type", .str "AssignStatement"), ("token", token.toJson), ("name", toJson name),
      ("value", toJson value)]
  | .print token value =>
    .obj [("type", .str "PrintStatement"), ("token", token.toJson), ("value", toJson value)]
  | .expr token expression =>
    .obj [("type", .str "ExpressionStatement"), ("token", token.toJson),
      ("expression", toJson expression)]
  | .block token statements =>
    .obj [("type", .str "BlockStatement"), ("token", token.toJson),
      ("statements", .arr (toJsonList statements))]
  | .cond token condition yes no =>
    .obj [("type", .str "IfExpression"), ("token", token.toJson), ("condition", toJson condition),
      ("true_branch", toJson yes), ("false_branch", toJson no)]
  | .loop token condition body =>
    .obj [("type", .str "WhileExpression"), ("token", token.toJson), ("condition", toJson condition),
      ("body", toJson body)]
  | .ident token name =>
    .obj [("type", .str "Identifier"), ("token", token.toJson), ("name", name)]
  | .int token value =>
    .obj [("type", .str "IntegerLiteral"), ("token", token.toJson), ("value", .ofInt value)]
  | .binary token left operator right =>
    .obj [("type", .str "InfixExpression"), ("token", token.toJson), ("left", toJson left),
      ("operator", operator), ("right", toJson right)]
  | .unary token operator right =>
    .obj [("type", .str "PrefixExpression"), ("token", token.toJson), ("operator", operator),
      ("right", toJson right)]

def toJsonList : List Node → List Json
  | [] => []
  | n :: ns => toJson n :: toJsonList ns

end

end Node

/-! ## Loading -/

/-- The token that a datum stores; its kind is looked at before its literal. -/
def Token.ofJson : Json → Except LoadFault Token
  | .obj fields =>
    match fields.lookup "type" with
    | none => .error (.noField "type")
    | some (.str name) =>
      match Kind.ofName? name with
      | none => .error (.unknownCategory (.str name))
      | some kind =>
        match fields.lookup "literal" with
        | none => .error (.noField "literal")
        | some literal => .ok ⟨kind, literal⟩
    | some (.arr items) => .error (.compoundCategory (.arr items))
    | some (.obj items) => .error (.compoundCategory (.obj items))
    | some kind => .error (.unknownCategory kind)
  | j => .error (.badToken j)

/-- The integer that a datum denotes: a number without its fraction, a truth value as zero or one, or a
numeral. -/
def Json.toInt : Json → Except LoadFault Int
  | .num (.int n) => .ok n
  | .num (.real .nan) => .error .notANumber
  | .num (.real x) =>
    match x.truncate? with
    | some n => .ok n
    | none => .error .infinite
  | .bool b => .ok (if b then 1 else 0)
  | .str s =>
    match Numeral.read s with
    | .ok n => .ok n
    | .error e => .error (.numeral e)
  | j => .error (.noNumber j)

/-- A field of an object, read in every way: as it is, as a tree, and as the trees of a sequence. -/
structure Field where
  datum : Json
  tree : Except LoadFault Node
  trees : Except LoadFault (List Node)

abbrev Fields := List (String × Field)

namespace Fields

/-- A field that must be there. -/
def get (fields : Fields) (name : String) : Except LoadFault Field :=
  match fields.lookup name with
  | some field => .ok field
  | none => .error (.noField name)

def datum (fields : Fields) (name : String) : Except LoadFault Json := do
  let field ← fields.get name
  return field.datum

def part (fields : Fields) (name : String) : Except LoadFault Node := do
  let field ← fields.get name
  field.tree

/-- The tree of a field that may be left out. -/
def optional (fields : Fields) (name : String) : Except LoadFault Node :=
  match fields.lookup name with
  | some field => field.tree
  | none => .ok .missing

def sequence (fields : Fields) (name : String) : Except LoadFault (List Node) := do
  let field ← fields.get name
  field.trees

def token (fields : Fields) : Except LoadFault Token := do
  let datum ← fields.datum "token"
  Token.ofJson datum

def integer (fields : Fields) (name : String) : Except LoadFault Int := do
  let datum ← fields.datum name
  datum.toInt

/-- The tree that an object with these fields stores. -/
def assemble (fields : Fields) : Except LoadFault Node := do
  let kind := match fields.lookup "type" with
    | some field => field.datum
    | none => .null
  match kind with
  | .str "Root" => return .root (← fields.sequence "statements")
  | .str "AssignStatement" =>
    return .assign (← fields.token) (← fields.part "name") (← fields.optional "value")
  | .str "PrintStatement" => return .print (← fields.token) (← fields.optional "value")
  | .str "ExpressionStatement" => return .expr (← fields.token) (← fields.optional "expression")
  | .str "BlockStatement" => return .block (← fields.token) (← fields.sequence "statements")
  | .str "IfExpression" =>
    return .cond (← fields.token) (← fields.optional "condition") (← fields.part "true_branch")
      (← fields.optional "false_branch")
  | .str "WhileExpression" =>
    return .loop (← fields.token) (← fields.optional "condition") (← fields.part "body")
  | .str "Identifier" => return .ident (← fields.token) (← fields.datum "name")
  | .str "IntegerLiteral" => return .int (← fields.token) (← fields.integer "value")
  | .str "InfixExpression" =>
    return .binary (← fields.token) (← fields.optional "left") (← fields.datum "operator")
      (← fields.optional "right")
  | .str "PrefixExpression" =>
    return .unary (← fields.token) (← fields.datum "operator") (← fields.optional "right")
  | kind => throw (.unknownKind kind)

end Fields

/-- The trees of a sequence that holds only texts: the characters of a text, or the names of an object's
fields. No text is a tree, so the sequence has to be empty. -/
def treesOfTexts (isEmpty : Bool) : Except LoadFault (List Node) :=
  if isEmpty then .ok [] else .error .notObject

namespace Node

mutual

def ofJson : Json → Except LoadFault Node
  | .null => .ok .missing
  | .obj fields => (readFields fields).assemble
  | _ => .error .notObject

def ofJsonList : List Json → Except LoadFault (List Node)
  | [] => .ok []
  | j :: js => do
    let n ← ofJson j
    let ns ← ofJsonList js
    return n :: ns

/-- The trees of a datum that is a sequence. -/
def sequenceOf : Json → Except LoadFault (List Node)
  | .arr items => ofJsonList items
  | .str s => treesOfTexts s.isEmpty
  | .obj fields => treesOfTexts fields.isEmpty
  | j => .error (.noSequence j)

/-- The fields of an object, each read in every way. -/
def readFields : List (String × Json) → Fields
  | [] => []
  | (name, j) :: rest => (name, ⟨j, ofJson j, sequenceOf j⟩) :: readFields rest

end

end Node

end LineLang
