import LineLang.Proofs.Disks
import LineLang.Runner

/-!
# Jobs, one after the other

* `Job.run_bind` : a job that goes on with another one;
* `Job.run_openFile`, `Job.run_write`, `Job.write_spec` : files that are opened and written;
* `Runner.tracePlace` : where the trace file stands. It can be written unless a folder stands there;
* `Runner.runNew` : a new runner runs a program;
* `Runner.run_runNew` : what that leaves on the disk.
-/

namespace LineLang

namespace Job

variable {α β : Type}

theorem run_bind (j : Job α) (f : α → Job β) (d : Disk) : (j >>= f).run.run d =
    match j.run.run d with
    | none => none
    | some (.ok a, e) => (f a).run.run e
    | some (.error x, e) => some (.error x, e) := by
  show (j d).bind _ = _
  change _ = match j d with
    | none => none
    | some (.ok a, e) => (f a) e
    | some (.error x, e) => some (.error x, e)
  match j d with
  | none => rfl
  | some (.ok a, e) => rfl
  | some (.error x, e) => rfl

theorem run_openFile (mode : WriteMode) (path : Octets) (d : Disk) : (openFile mode path).run.run d =
    match d.locate mode path with
    | .ok (l, e) => some (.ok l, e)
    | .error o => some (.error (.disk ⟨o, path⟩), d) := by
  have hget : (get : Job Disk).run.run d = some (.ok d, d) := rfl
  rw [openFile, run_bind, hget]
  dsimp only
  unfold Disk.openFile
  cases d.locate mode path with
  | ok opened => rfl
  | error o => rfl

theorem run_write (path : Octets) (text : String) (d : Disk) : (write path text).run.run d =
    match d.locate .truncate path with
    | .ok (l, e) => some (.ok (), e.append l text)
    | .error o => some (.error (.disk ⟨o, path⟩), d) := by
  rw [write, run_bind, run_openFile]
  cases d.locate .truncate path with
  | ok opened => rfl
  | error o => rfl

/-- A file that was written is read back, and nothing else has changed. -/
theorem write_spec {path : Octets} {text : String} {d e : Disk} (h : (write path text).run.run d = some (.ok (), e)) :
    (∃ l, Disk.Twin (l ++ [(Disk.part path).last]) d e) ∧ e.read path = .ok (Text.encode text) := by
  rw [run_write] at h
  split at h
  · next t e' hl =>
    obtain ⟨⟨l, ht⟩, htwin, hread⟩ := Disk.locate_spec hl text
    obtain ⟨-, rfl⟩ := Prod.mk.inj (Option.some.inj h)
    exact ⟨⟨l, ht ▸ htwin⟩, hread⟩
  · cases h

end Job

/-! ## The trace file -/

namespace Runner

def tracePlace : Location := [traceFile]

theorem locate_traceFile (d : Disk) (mode : WriteMode) : d.locate mode traceFile = d.ready mode tracePlace := by
  have hr : Disk.refusal? traceFile = none := by decide
  have hp : Disk.part traceFile = ⟨false, [], traceFile, false⟩ := by decide
  have hlen : ¬ Disk.nameLimit < traceFile.length := by decide
  rw [Disk.locate_eq, hr, hp]
  simp only [if_neg hlen]
  rfl

/-- A runner that keeps no trace opens no file. -/
theorem run_start_of_nonpos {level : Int} (h : level ≤ 0) (mode : WriteMode) (d : Disk) :
    (start level mode).run.run d = some (.ok { level }, d) := by
  rw [start, opened, if_neg (Int.not_lt.2 h)]
  rfl

theorem run_start {level : Int} (h : 0 < level) {mode : WriteMode} {d e : Disk}
    (ho : d.ready mode tracePlace = .ok (tracePlace, e)) :
    (start level mode).run.run d = some (.ok { level, trace := some tracePlace }, e) := by
  rw [start, opened, if_pos h, Job.run_bind, Job.run_openFile, locate_traceFile, ho]
  rfl

/-- A run, once the trace file is open. -/
def traced (r : Runner) (fuel : Nat) (program : Node) (store : Store) : Job Ran :=
  match LineLang.run r.level fuel program store with
  | none => fun _ => none
  | some report => do
    let _ ← r.emit report.trace
    return ⟨report.outcome, report.store, { r with trace := none }⟩

/-- The trace is written behind the end of the file, which is then closed. -/
theorem run_traced (r : Runner) (fuel : Nat) (program : Node) (store : Store) (d : Disk) :
    (r.traced fuel program store).run.run d =
      (LineLang.run r.level fuel program store).map fun report =>
        (.ok ⟨report.outcome, report.store, { r with trace := none }⟩,
          match r.trace with
          | some l => d.append l report.trace
          | none => d) := by
  unfold traced
  cases LineLang.run r.level fuel program store with
  | none => rfl
  | some report =>
    dsimp only
    unfold emit
    cases r.trace <;> rfl

/-- A run goes on with a trace file that is open. -/
theorem run_of_open (r : Runner) {l : Location} (h : r.trace = some l) (fuel : Nat) (program : Node) (store : Store) :
    r.run fuel program store = r.traced fuel program store := by
  unfold Runner.run
  rw [h]
  rfl

/-- A run without a trace opens no file. -/
theorem run_of_nonpos (r : Runner) (h : r.trace = none) (hl : r.level ≤ 0) (fuel : Nat) (program : Node)
    (store : Store) : r.run fuel program store = r.traced fuel program store := by
  unfold Runner.run
  rw [h]
  dsimp only
  rw [opened, if_neg (Int.not_lt.2 hl)]
  rfl

def runNew (level : Int) (mode : WriteMode) (fuel : Nat) (program : Node) (store : Store) : Job Ran := do
  let r ← start level mode
  r.run fuel program store

theorem run_runNew_of_nonpos {level : Int} (h : level ≤ 0) (mode : WriteMode) (fuel : Nat) (program : Node)
    (store : Store) (d : Disk) : (runNew level mode fuel program store).run.run d =
      (LineLang.run level fuel program store).map fun report =>
        (.ok ⟨report.outcome, report.store, { level }⟩, d) := by
  rw [runNew, Job.run_bind, run_start_of_nonpos h]
  dsimp only
  rw [run_of_nonpos { level } rfl h, run_traced]

/-- Unless a folder stands in its place, the trace file then holds what was kept of it and the trace of the run. -/
theorem run_runNew {level : Int} (h : 0 < level) (mode : WriteMode) (fuel : Nat) (program : Node) (store : Store)
    {d : Disk} (hd : d.at? tracePlace ≠ some .folder) :
    ∃ e : Disk, ((runNew level mode fuel program store).run.run d =
        (LineLang.run level fuel program store).map fun report =>
          (.ok ⟨report.outcome, report.store, { level }⟩, e.append tracePlace report.trace)) ∧
      ∀ text, Disk.Twin tracePlace d (e.append tracePlace text) ∧
        (e.append tracePlace text).at? tracePlace = some (.file (d.kept mode tracePlace ++ Text.encode text)) := by
  obtain ⟨e, hready, hfile⟩ := Disk.ready_append mode hd
  refine ⟨e, ?_, hfile⟩
  rw [runNew, Job.run_bind, run_start h hready]
  dsimp only
  rw [run_of_open { level, trace := some tracePlace } rfl, run_traced]

end Runner

end LineLang
