import LineLang.Job
import LineLang.Source

/-!
# Running programs with a trace

A runner with a positive trace level keeps a trace file, `debug.txt`. It is opened when the runner is made and
closed by the first run; a later run opens it again to write behind its end. While it is closed, what is told
outside a run is printed.

* `Runner`, `Runner.start` : a runner, its trace file opened in the given mode;
* `Runner.run` : runs a program on a store, all of its trace going to the file;
* `Runner.evaluate` : evaluates a program outside a run;
* `Runner.tell` : adds a message to the trace.
-/

namespace LineLang

structure Runner where
  /-- How much is told; nothing at zero and below. -/
  level : Int
  /-- The store of programs that are given none. -/
  globals : Store := .empty
  /-- The open trace file. -/
  trace : Option Location := none
  deriving DecidableEq, Repr

namespace Runner

def traceFile : Octets := "debug.txt"

/-- The runner with its trace file open, if it keeps one. -/
def opened (r : Runner) (mode : WriteMode) : Job Runner := do
  if 0 < r.level then
    let l ← Job.openFile mode traceFile
    return { r with trace := some l }
  else return r

def start (level : Int) (mode : WriteMode) : Job Runner := ({ level } : Runner).opened mode

/-- Writes to the trace file if it is open, else gives the text back to be printed. -/
def emit (r : Runner) (text : String) : Job String := do
  match r.trace with
  | some l =>
    Job.append l text
    return ""
  | none => return text

structure Ran where
  outcome : Except Fault Value
  store : Store
  runner : Runner

/-- Runs a program. The trace file is closed behind it, whatever the outcome. -/
def run (r : Runner) (fuel : Nat) (program : Node) (store : Store) : Job Ran := do
  let r ← match r.trace with
    | some _ => pure r
    | none => r.opened .append
  match LineLang.run r.level fuel program store with
  | none => fun _ => none
  | some report =>
    let _ ← r.emit report.trace
    return ⟨report.outcome, report.store, { r with trace := none }⟩

/-- The value of a program run on an empty store. -/
def value (r : Runner) (fuel : Nat) (program : Node) : Job Value := do
  let ran ← r.run fuel program .empty
  match ran.outcome with
  | .ok v => return v
  | .error e => throw (.stopped e)

/-- What evaluating a program outside a run leaves. -/
structure Evaluated where
  outcome : Except Fault Value
  store : Store
  printed : String

def evaluate (r : Runner) (fuel : Nat) (program : Node) (store : Store) : Job Evaluated := do
  match (eval r.level fuel program).run.run { store } with
  | none => fun _ => none
  | some (outcome, s) =>
    let printed ← r.emit (String.join (s.log.reverse.map fun e => e.message ++ "\n"))
    return ⟨outcome, s.store, printed⟩

/-- Adds a message to the trace, and gives back what is to be printed. -/
def tell (r : Runner) (message : String) : Job String :=
  if 0 < r.level then r.emit (message ++ "\n") else pure ""

end Runner

/-- The value of a program text, run by a new runner. -/
def runText (fuel : Nat) (source : String) (level : Int) : Job Value := do
  let r ← Runner.start level .truncate
  r.value fuel (Tolerant.parse source)

end LineLang
