import LineLang.Runner

/-!
# Sessions

A session is a runner with stores beside its own, used step by step.

* `Session`, `Session.start` : the runner, the named stores, made empty when first used, and the files;
* `Request` : what can be asked of a session;
* `Reply` : the answers;
* `Session.step` : answers a request.
-/

namespace LineLang

structure Session where
  runner : Runner
  stores : List (String × Store) := []
  disk : Disk := {}
  deriving DecidableEq, Repr

inductive Request where
  /-- Run a program text. -/
  | run (manner : Manner) (source : String)
  /-- Evaluate a program text outside a run. -/
  | evaluate (manner : Manner) (source : String)
  /-- Add a message to the trace. -/
  | tell (message : String)
  | get (name : String)
  | set (name : String) (value : Value)
  | contains (name : String)
  /-- Go on with a new runner. -/
  | renew (level : Int) (mode : WriteMode)
  /-- The text of the trace file. -/
  | trace
  deriving DecidableEq, Repr

inductive Reply where
  | done
  | value (v : Value)
  | found (v : Value) (known : Bool)
  | truth (b : Bool)
  | text (s : Option String)
  | failed (e : Failure)
  deriving DecidableEq, Repr

/-- The answer with what was printed on the way. -/
structure Answer where
  reply : Reply
  printed : String := ""
  deriving DecidableEq, Repr

namespace Session

/-- A new session with an empty folder. -/
def start (level : Int) : Option Session := do
  let (made, disk) ← (Runner.start level .truncate).run.run {}
  match made with
  | .ok runner => return { runner, disk }
  | .error _ => none

/-- The store of the given name, the runner's own for no name. -/
def store (s : Session) : Option String → Store
  | none => s.runner.globals
  | some name => (s.stores.lookup name).getD .empty

/-- Sets a named store among the given ones. -/
def setStores (name : String) (store : Store) : List (String × Store) → List (String × Store)
  | [] => [(name, store)]
  | entry :: entries =>
    if entry.1 = name then (name, store) :: entries else entry :: setStores name store entries

def withStore (s : Session) (name : Option String) (store : Store) : Session :=
  match name with
  | none => { s with runner := { s.runner with globals := store } }
  | some name => { s with stores := setStores name store s.stores }

def traceText (s : Session) : Option String := do
  let bytes ← s.disk.bytes? Runner.traceFile
  match Text.decode bytes with
  | .ok cs => some (String.ofList cs)
  | .error _ => none

/-- Does a job on the session's files; a failure is the reply. -/
def perform {α : Type} (s : Session) (job : Job α) (finish : α → Session → Session × Answer) :
    Option (Session × Answer) := do
  let (outcome, disk) ← job.run.run s.disk
  let s := { s with disk }
  match outcome with
  | .ok a => return finish a s
  | .error e => return (s, { reply := .failed e })

/-- The reply to a program that ended or stopped. -/
def replyTo : Except Fault Value → Reply
  | .ok v => .value v
  | .error e => .failed (.stopped e)

/-- Answers a request, with the store called `name`. -/
def step (s : Session) (fuel : Nat) (name : Option String) : Request → Option (Session × Answer)
  | .run manner source =>
    match manner.parse source with
    | .error e => return (s, { reply := .failed (.grammar e) })
    | .ok program =>
      s.perform (s.runner.run fuel program (s.store name)) fun ran s =>
        let own := s.runner.globals
        let s := { s with runner := { ran.runner with globals := own } }
        (s.withStore name ran.store, { reply := replyTo ran.outcome })
  | .evaluate manner source =>
    match manner.parse source with
    | .error e => return (s, { reply := .failed (.grammar e) })
    | .ok program =>
      s.perform (s.runner.evaluate fuel program (s.store name)) fun ev s =>
        (s.withStore name ev.store, ⟨replyTo ev.outcome, ev.printed⟩)
  | .tell message =>
    s.perform (s.runner.tell message) fun printed s => (s, ⟨.done, printed⟩)
  | .get x =>
    let found := (s.store name).get? (.str x)
    return (s, { reply := .found (found.getD .missing) found.isSome })
  | .set x value => return (s.withStore name ((s.store name).set (.str x) value), { reply := .done })
  | .contains x => return (s, { reply := .truth ((s.store name).contains (.str x)) })
  | .renew level mode =>
    s.perform (Runner.start level mode) fun runner s => ({ s with runner }, { reply := .done })
  | .trace => return (s, { reply := .text s.traceText })

end Session

end LineLang
