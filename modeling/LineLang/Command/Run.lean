import LineLang.Batch
import LineLang.Command.Options
import LineLang.Json.Writer

/-!
# The command line

* `Task`, `Settings.plan` : what is to be done. Empty arguments count as absent;
* `Task.perform` : does it; the text it prints;
* `Outlet` : what standard output takes;
* `Ending`, `Result`, `invoke` : a whole run of the command. A failure that is reported ends it with status 1, a
  command line that is not understood with status 2; any other failure escapes.
-/

namespace LineLang.Command

def usage : String :=
  "usage: cmm [-h] [-v] [-o OUTPUT]\n" ++
  "           [--emit-ast CMM_FILE | --ast AST_JSON_FILE | --check CMM_FILE | --examples DIR]\n" ++
  "           [program]\n"

def helpText : String :=
  usage ++
  "\ncmm language interpreter\n" ++
  "\npositional arguments:\n" ++
  "  program               cmm program file (.cmm) to execute\n" ++
  "\noptions:\n" ++
  "  -h, --help            show this help message and exit\n" ++
  "  -v                    increase debug verbosity (can be repeated)\n" ++
  "  -o OUTPUT, --output OUTPUT\n" ++
  "                        file receiving the program value\n" ++
  "  --emit-ast CMM_FILE   emit AST JSON for the given .cmm file\n" ++
  "  --ast AST_JSON_FILE   execute AST from a JSON file\n" ++
  "  --check CMM_FILE      check the syntax of the given .cmm file\n" ++
  "  --examples DIR        interpret exampleN.cmm files of DIR\n"

inductive Task where
  /-- Write the tree of a program file to a file. -/
  | emit (file : Octets)
  | replay (file : Octets) (output : Option Octets)
  /-- Check a program file against the strict grammar. -/
  | check (file : Octets)
  | examples (folder : Octets)
  | execute (file : Octets) (output : Option Octets)
  deriving DecidableEq, Repr

/-- An argument that is not empty. -/
def present (s : Option Octets) : Option Octets := s.filter (· != [])

def Settings.plan (s : Settings) : Except UsageFault Task :=
  let output := present s.output
  match s.task.filter (·.2 != []) with
  | some (.emit, file) => .ok (.emit file)
  | some (.replay, file) => .ok (.replay file output)
  | some (.check, file) => .ok (.check file)
  | some (.examples, folder) => .ok (.examples folder)
  | _ =>
    match present s.program with
    | some file => .ok (.execute file output)
    | none => .error .noTask

namespace Task

def exampleCount : Int := 6

/-- The file to which the tree of a program is written. -/
def emitOutput (path : Path) : Path := path.withName (path.name ++ ".ast.json")

def replayOutput (path : Path) : Option Octets → Path
  | some output => .ofText output
  | none => path.withName (path.name ++ ".txt")

/-- The file that receives the value of a program. -/
def executeOutput? (path : Path) : Option Octets → Option Path
  | some output => some (.ofText output)
  | none => path.withSuffix? ".txt"

def line (text : Octets) : Octets := text ++ [Octet.newline]

def perform (fuel : Nat) (level : Int) : Task → Job Octets
  | .emit file => do
    let path := Path.ofText file
    let source ← Job.source path
    let output := emitOutput path
    Job.write output.text ((Tolerant.parse source).toJson.write .indented)
    return line output.text
  | .replay file output => do
    let path := Path.ofText file
    let program ← Job.storedTree path
    let r ← Runner.start level .truncate
    let v ← r.value fuel program
    let output := replayOutput path output
    let _ ← writeValue path.text output.text v
    return line output.text
  | .check file => do
    let path := Path.ofText file
    let source ← Job.source path
    match Strict.parse source with
    | .error e => throw (.grammar e)
    | .ok _ => return line (path.text ++ ": ok")
  | .examples folder => do
    let written ← interpretExamples fuel level folder exampleCount
    return String.join (written.map fun (name, count) =>
      name ++ ": " ++ Text.Decimal.ofNat count ++ " bytes\n")
  | .execute file output => do
    let path := Path.ofText file
    match executeOutput? path output with
    | none => throw (.noName path.text)
    | some output =>
      let _ ← interpretFile fuel level .truncate path.text output.text
      return line output.text

end Task

/-- What standard output takes: any octets, or only those of a text. -/
inductive Outlet where
  | octets
  | text
  deriving DecidableEq, Repr

/-- What keeps octets from being printed. -/
def Outlet.refusal? : Outlet → Octets → Option Text.EncodeFault
  | .octets, _ => none
  | .text, o => Text.encodeFault? o

inductive Ending where
  | done
  | status (code : Nat)
  | escaped (e : Failure)
  deriving DecidableEq, Repr

structure Result where
  ending : Ending
  output : Octets := []
  errors : String := ""
  disk : Disk
  deriving DecidableEq, Repr

/-- The end of a command whose words are not understood. -/
def misused (e : UsageFault) (disk : Disk) : Result :=
  { ending := .status 2, errors := usage ++ "cmm: error: " ++ e.message ++ "\n", disk }

def failed (e : Failure) (disk : Disk) : Result :=
  if e.isReported then { ending := .status 1, errors := "Error: " ++ e.message ++ "\n", disk }
  else { ending := .escaped e, disk }

/-- The end of a task. What it has to print is printed last. -/
def finish (outlet : Outlet) (outcome : Except Failure Octets) (disk : Disk) : Result :=
  match outcome with
  | .error e => failed e disk
  | .ok output =>
    match outlet.refusal? output with
    | some e => failed (.unprintable e) disk
    | none => { ending := .done, output, disk }

def invoke (outlet : Outlet) (reading : Reading) (fuel : Nat) (words : List Octets) (disk : Disk) :
    Option Result :=
  match settle reading words with
  | .error .help => some { ending := .status 0, output := helpText, disk }
  | .error (.fault e) => some (misused e disk)
  | .ok settings =>
    match settings.plan with
    | .error e => some (misused e disk)
    | .ok task => do
      let (outcome, disk) ← (task.perform fuel settings.verbosity).run.run disk
      return finish outlet outcome disk

end LineLang.Command
