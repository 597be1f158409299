import LineLang.Command.Run

/-!
# The command

The command works on a copy of the entries that it may touch. They are read before it runs, and those that it has
changed are written back.
-/

namespace LineLang.Command

def Task.paths : Task → List Octets
  | .emit file => [file, (emitOutput (Path.ofText file)).text]
  | .replay file output => [Runner.traceFile, file, (replayOutput (Path.ofText file) output).text]
  | .check file => [file]
  | .examples folder =>
    Runner.traceFile :: (List.range exampleCount.toNat).flatMap fun n =>
      [((Path.ofText folder).child (exampleName (n + 1))).text,
       ((Path.ofText folder).child (outputName (n + 1))).text]
  | .execute file output =>
    Runner.traceFile :: file :: (executeOutput? (Path.ofText file) output).toList.map Path.text

/-- The paths that a command line may read or write. -/
def paths (reading : Reading) (words : List Octets) : List Octets :=
  match settle reading words with
  | .error _ => []
  | .ok settings =>
    match settings.plan with
    | .error _ => []
    | .ok task => task.paths

/-- The locations on the way along a path, `..` taken at its word. -/
def waypoints (d : Disk) (path : Octets) : List Location :=
  let step (l : Location) (name : Octets) : Location := if name = Disk.out then d.up l else d.down l name
  let p := Path.ofText path
  let first := if p.start = .here then [] else d.top
  (List.range p.parts.length).map fun n => (p.parts.take (n + 1)).foldl step first

/-- The path of a location, if its names are text. -/
def pathOf? (l : Location) : Option String :=
  match Text.decode (Path.mk .here l).text with
  | .ok cs => some (String.ofList cs)
  | .error _ => none

def look (l : Location) : IO (Option Entry) := do
  match pathOf? l with
  | none => return none
  | some path =>
    try
      let bytes ← IO.FS.readBinFile path
      return some (.file bytes.toList)
    catch
      | .inappropriateType .. => return some .folder
      | _ => return none

def copy (d : Disk) (ls : List Location) : IO Disk :=
  ls.foldlM (fun d l => do
    match ← look l with
    | some e => return if Disk.isAround l then d else d.put l e
    | none => return d) d

/-- Writes back the files that have changed. -/
def restore (old new : Disk) : IO Unit :=
  new.entries.forM fun (l, e) =>
    match e, pathOf? l with
    | .file bytes, some path =>
      if old.at? l = some e then pure () else IO.FS.writeBinFile path ⟨bytes.toArray⟩
    | _, _ => pure ()

/-- A bound on the steps of a program that no machine reaches. -/
def manySteps : Nat := 4611686018427387904

end LineLang.Command

open LineLang LineLang.Command in
def main (args : List String) : IO UInt32 := do
  let words := args.map Text.encode
  let folder := Path.ofText (← IO.currentDir).toString
  let empty : Disk := { around := folder.parts.reverse }
  let before ← copy empty ((paths .late words).flatMap (waypoints empty))
  match invoke .text .late manySteps words before with
  | none => return 3
  | some result =>
    restore before result.disk
    (← IO.getStdout).write ⟨result.output.toArray⟩
    IO.eprint result.errors
    match result.ending with
    | .done => return 0
    | .status code => return code.toUInt32
    | .escaped e =>
      IO.eprintln e.message
      return 1
