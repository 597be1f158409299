import LineLang.Disk.Basic
import LineLang.Eval
import LineLang.Json.Reader
import LineLang.Strict.Parse
import LineLang.Tree.Json

/-!
# Work on files

* `Failure` : why work on files ends early, with its wording; `Failure.isReported` holds of those that a user of
  the command line is told of in one line;
* `Job` : work that changes files, may fail, and may lack the fuel to end. Files changed before a failure stay
  changed;
* `Job.source`, `Job.storedTree` : the text of a program file, and the tree of a file. Line ends are made line feeds;
* `Job.openFile`, `Job.append`, `Job.write` : the operations of `Disk` as jobs.
-/

namespace LineLang

inductive Failure where
  /-- The program is not a file. -/
  | noProgram (path : Octets)
  | noValue (path : Octets)
  | grammar (e : Strict.SyntaxFault)
  | disk (e : DiskFault)
  /-- A file is no text. -/
  | encoding (e : Text.DecodeFault)
  | stopped (e : Fault)
  /-- The stored tree is not a file. -/
  | noTree (path : Octets)
  | badTree (path : Octets) (reason : String)
  /-- The stored tree holds an infinite number. -/
  | infinite
  /-- The path of a program ends without a name, so that its output has none. -/
  | noName (path : Octets)
  /-- What is to be printed is no text. -/
  | unprintable (e : Text.EncodeFault)
  deriving DecidableEq, Repr

namespace Failure

def message : Failure → String
  | .noProgram path => Text.shown path ++ " is not a regular file"
  | .noValue path => Text.shown path ++ " produced no value"
  | .grammar e => e.message
  | .disk e => e.message
  | .encoding e => e.message
  | .stopped e => e.message
  | .noTree path => "file " ++ Text.shown path ++ " not found"
  | .badTree path reason => "invalid AST file " ++ Text.shown path ++ ": " ++ reason
  | .infinite => LoadFault.infinite.message
  | .noName path => "PosixPath(" ++ Text.quotedOctets path ++ ") has an empty name"
  | .unprintable e => e.message

/-- Whether the command line reports a failure and ends with status 1. -/
def isReported : Failure → Bool
  | .noProgram _ | .noValue _ | .grammar _ | .noTree _ | .badTree .. => true
  | .disk e => e.obstacle != .nulByte
  | .encoding _ | .stopped _ | .infinite | .noName _ | .unprintable _ => false

end Failure

abbrev Job (α : Type) := ExceptT Failure (StateT Disk Option) α

namespace Job

def openFile (mode : WriteMode) (path : Octets) : Job Location := do
  let d ← get
  match d.openFile mode path with
  | .ok (l, d) =>
    set d
    return l
  | .error e => throw (.disk e)

def append (l : Location) (text : String) : Job Unit := modify fun d => d.append l text

/-- Makes a file hold exactly a text. -/
def write (path : Octets) (text : String) : Job Unit := do
  let l ← openFile .truncate path
  append l text

/-- The text of octets, with line feeds for all line ends. -/
def textOf (bytes : List UInt8) : Except Text.DecodeFault (List Char) := do
  let cs ← Text.decode bytes
  return Text.unifyLineEnds cs

/-- The content of the file at a path; where there is none, the job fails as told. -/
def content (path : Path) (failure : Failure) : Job (List UInt8) := do
  let d ← get
  match d.read path.text with
  | .ok bytes => return bytes
  | .error .tooLong => throw (.disk ⟨.tooLong, path.text⟩)
  | .error _ => throw failure

def source (path : Path) : Job String := do
  let bytes ← content path (.noProgram path.text)
  match textOf bytes with
  | .error e => throw (.encoding e)
  | .ok cs => return String.ofList cs

/-- The tree that a file stores. Every reason why it stores none is a failure of the file, but for an infinite
number. -/
def storedTree (path : Path) : Job Node := do
  let bytes ← content path (.noTree path.text)
  match textOf bytes with
  | .error e => throw (.badTree path.text e.message)
  | .ok cs =>
    match Json.read cs with
    | .error e => throw (.badTree path.text e.message)
    | .ok j =>
      match Node.ofJson j with
      | .error .infinite => throw .infinite
      | .error e => throw (.badTree path.text e.message)
      | .ok n => return n

end Job

end LineLang
