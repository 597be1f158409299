import LineLang.Store
import LineLang.Tree.Render

/-!
# Evaluation

A program has the value of its last statement that has one. A block stops at its first statement that has a value
and has that value; so a print statement leaves all blocks and loops around it. An unknown name, an operand that
is no plain integer and a division by zero have no value.

* `Event` : what a trace tells, with the level from which on it is told and its wording;
* `State` : the store and the events so far, the latest first;
* `Fault` : evaluation stops only at an assignment whose target is no name. Trees made by a parser have none;
* `Steps` : the steps of evaluation, whatever they do besides; `Steps.eval` puts them together;
* `eval level fuel n` : evaluates `n`. Without enough `fuel` there is no answer, which is the answer of a program
  that runs forever for every `fuel`;
* `execute` : a whole run: the program is written out, evaluated and its value reported.
-/

namespace LineLang

inductive Event where
  /-- The program about to run, as text. -/
  | program (text : String)
  | assigned (name : Json) (value : Value)
  /-- The condition of a choice was evaluated. -/
  | chosen (condition : Value)
  /-- The condition of a loop was evaluated. -/
  | tested (condition : Value)
  | result (value : Value)
  deriving DecidableEq, Repr

namespace Event

/-- The least trace level that tells an event. -/
def level : Event → Int
  | .program _ | .result _ => 1
  | .assigned .. => 2
  | .chosen _ | .tested _ => 3

def message : Event → String
  | .program text => "parsed program:\n" ++ text
  | .assigned name value => "assign " ++ name.shown ++ " = " ++ value.text
  | .chosen condition =>
    "if condition " ++ condition.text ++ " -> " ++
      (if condition.isTrue then "true branch" else "false branch")
  | .tested condition => "while condition " ++ condition.text
  | .result value => "result: " ++ value.text

end Event

inductive Fault where
  /-- The target of an assignment is a part of the given kind, which has no name. -/
  | nameless (kind : String)
  /-- A name is of the given kind and cannot be looked up. -/
  | noKey (kind : String)
  /-- The program cannot be written out. -/
  | nonText (e : NonText)
  deriving DecidableEq, Repr

def Fault.message : Fault → String
  | .nameless kind => "'" ++ kind ++ "' object has no attribute 'name'"
  | .noKey kind => "unhashable type: '" ++ kind ++ "'"
  | .nonText e => e.message

/-- The store and the events told so far, the latest first. -/
structure State where
  store : Store
  log : List Event := []
  deriving DecidableEq, Repr

/-- A computation that changes the state, may stop with a fault, and may lack the fuel to answer. The state at a
fault is kept. -/
abbrev Eval (α : Type) := ExceptT Fault (StateT State Option) α

namespace Eval

/-- No answer: the fuel is used up. -/
def unfinished {α : Type} : Eval α := fun _ => none

/-- Tells an event if the trace level asks for it. -/
def tell (level : Int) (e : Event) : Eval Unit :=
  modify fun s => if e.level ≤ level then { s with log := e :: s.log } else s

/-- A datum as a name: lists and objects are none. -/
def keyOf : Json → Eval Json
  | .arr items => throw (.noKey (Json.arr items).kind)
  | .obj fields => throw (.noKey (Json.obj fields).kind)
  | j => pure j

/-- The name that the target of an assignment stands for. An assignment in that place stands for its own target,
which is a name only if it is missing. -/
def target : Node → Eval Json
  | .ident _ name => keyOf name
  | .assign _ .missing _ => pure .null
  | .assign _ name _ => throw (.noKey name.kind)
  | n => throw (.nameless n.kind)

/-- The value of a name, missing if it has not been set. -/
def lookup (name : Json) : Eval Value := do
  let key ← keyOf name
  let s ← get
  return (s.store.get? key).getD .missing

def assign (level : Int) (name : Json) (value : Value) : Eval Unit := do
  modify fun s => { s with store := s.store.set name value }
  tell level (.assigned name value)

/-- The last value that the statements of a program have, after the value `last` of those before. -/
def program {m : Type → Type} [Monad m] (run : Node → m Value) (last : Value) : List Node → m Value
  | [] => pure last
  | n :: ns => do
    let v ← run n
    program run (if v.isMissing then last else v) ns

/-- The first value that a statement of a block has. -/
def block {m : Type → Type} [Monad m] (run : Node → m Value) : List Node → m Value
  | [] => pure .missing
  | n :: ns => do
    let v ← run n
    if v.isMissing then block run ns else pure v

/-- The result of the operator of a tree; a datum that is no text is no operator. -/
def operate (operator : Json) (left right : Value) : Value :=
  match operator with
  | .str s => Value.apply s left right
  | _ => .missing

end Eval

/-- The steps that evaluation is made of, as computations of some kind. -/
structure Steps (m : Type → Type) where
  /-- There is no fuel for an answer. -/
  unfinished : m Value
  tell : Event → m Unit
  target : Node → m Json
  assign : Json → Value → m Unit
  lookup : Json → m Value

open Eval in
def Steps.eval {m : Type → Type} [Monad m] (steps : Steps m) : (fuel : Nat) → Node → m Value
  | 0, _ => steps.unfinished
  | fuel + 1, n =>
    match n with
    | .missing => pure .missing
    | .root statements => program (steps.eval fuel) .missing statements
    | .expr _ expression => steps.eval fuel expression
    | .int _ value => pure (.ofInt value)
    | .binary _ left operator right => do
      let a ← steps.eval fuel left
      let b ← steps.eval fuel right
      return operate operator a b
    | .block _ statements => block (steps.eval fuel) statements
    | .loop _ condition body => do
      let c ← steps.eval fuel condition
      steps.tell (.tested c)
      if c.isTrue then
        let v ← steps.eval fuel body
        if v.isMissing then steps.eval fuel n else pure v
      else pure .missing
    | .cond _ condition yes no => do
      let c ← steps.eval fuel condition
      steps.tell (.chosen c)
      if c.isTrue then steps.eval fuel yes else steps.eval fuel no
    | .print _ value => do
      let v ← steps.eval fuel value
      return .printed v
    | .assign _ name value => do
      let v ← steps.eval fuel value
      let key ← steps.target name
      steps.assign key v
      return .missing
    | .ident _ name => steps.lookup name
    | .unary .. => pure .missing

/-- The steps with a trace at the given level. -/
def Eval.steps (level : Int) : Steps Eval where
  unfinished := unfinished
  tell := tell level
  target := target
  assign := assign level
  lookup := lookup

def eval (level : Int) : (fuel : Nat) → Node → Eval Value := (Eval.steps level).eval

/-- What a run leaves: its value or the fault at which it stopped, the store, and the events told. -/
structure Report where
  outcome : Except Fault Value
  store : Store
  events : List Event

/-- The text of a trace, a line feed after each message. -/
def Report.trace (r : Report) : String :=
  String.join (r.events.map fun e => e.message ++ "\n")

/-- Writes the program out, evaluates it and tells its value. -/
def execute (level : Int) (fuel : Nat) (program : Node) : Eval Value := do
  match program.shown with
  | .error e => throw (.nonText e)
  | .ok text =>
    Eval.tell level (.program text)
    let v ← eval level fuel program
    Eval.tell level (.result v)
    return v

def run (level : Int) (fuel : Nat) (program : Node) (store : Store) : Option Report := do
  let (outcome, s) ← (execute level fuel program).run.run { store }
  return ⟨outcome, s.store, s.log.reverse⟩

end LineLang
