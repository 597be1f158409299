import LineLang.Proofs.Replay
import LineLang.Proofs.Words

/-!
# What commands change

* `Disk.Keeps W d e` : the disks agree at all places outside `W`, and have the same folders;
* `Disk.place?` : the place that a path leads to; it is the same on such disks;
* `Runner.traces level` : the place of the trace file, if the level asks for a trace;
* `run_interpretFile_ends` : a file is written once the program has a value, and nothing else changes but the trace;
* `Examples.run_interpretEach_ends` : what the examples of a folder leave, one after the other;
* `Command.Task.Succeeded`, `Command.Task.Failed` : what a task changes if it is done, and if it fails;
* `Command.Asks.failed_or_unprintable` : how a command ends that was not done;
* `Command.failure_keeps_files` : a command that fails changes nothing but the trace.
-/

namespace LineLang

namespace Disk

/-! ## Places -/

/-- The place that a path leads to, unless that is the working folder or one around it. -/
def place? (d : Disk) (path : Octets) : Option Location :=
  match d.folderOf (part path) with
  | .ok l => if isAround (d.down l (part path).last) then none else some (d.down l (part path).last)
  | .error _ => none

theorem place?_of_not_folder {d : Disk} {path : Octets} {l : Location} (hw : d.folderOf (part path) = .ok l)
    (h : d.at? (d.down l (part path).last) ≠ some .folder) : d.place? path = some (d.down l (part path).last) := by
  simp only [place?, hw, not_around h, Bool.false_eq_true, if_false]

theorem Keeps.place?_eq {W : Location → Prop} {d e : Disk} (h : Keeps W d e) (path : Octets) :
    e.place? path = d.place? path := by
  unfold place?
  rcases h.folderOf_cases (part path) with hw | ⟨o, o', -, -, hd, he⟩
  · simp only [hw, h.down]
  · rw [hd, he]

theorem getLast?_of_place? {d : Disk} {path : Octets} {t : Location} (h : d.place? path = some t) :
    t.getLast? = some (part path).last := by
  unfold place? at h
  split at h
  · next l _ =>
    split at h
    · cases h
    · next haround =>
      rw [← Option.some.inj h, down_of_not_around (Bool.eq_false_iff.2 haround), List.getLast?_concat]
  · cases h

/-- A file away from the places that have changed is read as before. -/
theorem Keeps.read {W : Location → Prop} {d e : Disk} (h : Keeps W d e) {path : Octets} {bytes : List UInt8}
    (hread : d.read path = .ok bytes) (hW : ∀ t, d.place? path = some t → ¬ W t) : e.read path = .ok bytes := by
  obtain ⟨hr, hd, hc, hlen, l, hw, hfile⟩ := read_ok hread
  have hplace := place?_of_not_folder hw (by simp [hfile])
  refine read_file hr ((h.folderOf _ l).2 hw) hd hc hlen ?_
  rw [h.down, h.other (hW _ hplace), hfile]

/-- A file is opened at the place that its path leads to. -/
theorem place?_of_locate {d e : Disk} {mode : WriteMode} {path : Octets} {t : Location}
    (h : d.locate mode path = .ok (t, e)) : d.place? path = some t := by
  obtain ⟨-, -, -, -, l, hw, rfl, hready⟩ := locate_ok h
  refine place?_of_not_folder hw fun hf => ?_
  simp only [ready, hf] at hready
  cases hready

/-- The file holds the text of a program. -/
def HasText (d : Disk) (path : Octets) (text : String) : Prop :=
  ∃ bytes cs, d.read path = .ok bytes ∧ Job.textOf bytes = .ok cs ∧ text = String.ofList cs

theorem Keeps.hasText {W : Location → Prop} {d e : Disk} (h : Keeps W d e) {path : Octets} {text : String}
    (htext : d.HasText path text) (hW : ∀ t, d.place? path = some t → ¬ W t) : e.HasText path text := by
  obtain ⟨bytes, cs, hread, hcs, rfl⟩ := htext
  exact ⟨bytes, cs, h.read hread hW, hcs, rfl⟩

end Disk

/-! ## Single jobs -/

namespace Job

variable {α β : Type}

/-- What holds of a job that has ended: `done` of its value, or `failed`. -/
def Ends (done : α → Prop) (failed : Prop) : Except Failure α → Prop
  | .ok a => done a
  | .error _ => failed

end Job

/-- Where a runner of the given level may write. -/
def Runner.traces (level : Int) (l : Location) : Prop := 0 < level ∧ l = tracePlace

theorem Runner.run_start_folder {level : Int} (h : 0 < level) (mode : WriteMode) {d : Disk}
    (hd : d.at? tracePlace = some .folder) :
    (start level mode).run.run d = some (.error (.disk ⟨.isFolder, traceFile⟩), d) := by
  have hready : d.ready mode tracePlace = .error .isFolder := by
    unfold Disk.ready
    rw [hd]
  rw [start, opened, if_pos h, Job.run_bind, Job.run_openFile, locate_traceFile, hready]

/-- A run of the program ends with a value that can be written. -/
def Yields (fuel : Nat) (level : Int) (program : Node) (v : Value) : Prop :=
  v.hasOutput = true ∧ ∃ report, run level fuel program .empty = some report ∧ report.outcome = .ok v

/-- A new runner runs a program, and its value is written. -/
def writeRun (fuel : Nat) (level : Int) (mode : WriteMode) (program : Node) (src dst : Octets) : Job Nat := do
  let ran ← Runner.runNew level mode fuel program .empty
  match ran.outcome with
  | .ok v => writeValue src dst v
  | .error e => throw (.stopped e)

theorem start_bind_value (fuel : Nat) (level : Int) (mode : WriteMode) (program : Node) (src dst : Octets) :
    (do let r ← Runner.start level mode
        let v ← r.value fuel program
        writeValue src dst v) = writeRun fuel level mode program src dst := by
  simp only [writeRun, Runner.runNew, Runner.value, bind_assoc]
  congr 1
  funext r
  congr 1
  funext ran
  cases ran.outcome <;> rfl

/-- The value of the program stands in the file `dst`, and nothing else has changed but the trace. -/
structure Wrote (fuel : Nat) (level : Int) (program : Node) (dst : Octets) (d e : Disk) (v : Value) : Prop where
  yields : Yields fuel level program v
  keeps : d.Keeps (fun l => d.place? dst = some l ∨ Runner.traces level l) e
  read : e.read dst = .ok (Text.encode v.text)

namespace Examples

def program (folder : Path) (n : Nat) : Path := folder.child (exampleName n)

def output (folder : Path) (n : Nat) : Path := folder.child (outputName n)

/-- A name with a number in it is a part of a path. -/
theorem isName_numbered {front back : String} (hfront : '/' ∉ front.toList) (hback : '/' ∉ back.toList)
    (hlen : 2 ≤ front.length) (n : Nat) :
    Path.isName (Text.encode (front ++ Text.Decimal.ofNat n ++ back)) = true ∧
      Octet.slash ∉ Text.encode (front ++ Text.Decimal.ofNat n ++ back) := by
  have hlength : 2 ≤ (Text.encode (front ++ Text.Decimal.ofNat n ++ back)).length := by
    rw [Text.encode_append, Text.encode_append, List.length_append, List.length_append]
    have := Text.length_le_encode front
    omega
  refine ⟨?_, ?_⟩
  · simp only [Path.isName, Bool.and_eq_true, bne_iff_ne]
    refine ⟨fun heq => ?_, fun heq => ?_⟩
    · rw [heq] at hlength
      exact absurd hlength (by decide)
    · rw [heq] at hlength
      exact absurd hlength (by decide)
  · have hdigits : '/' ∉ (Text.Decimal.ofNat n).toList := by
      rw [Text.Decimal.ofNat, String.toList_ofList]
      exact fun hmem => absurd (Text.Decimal.digitsOf_mem n _ hmem) (by decide)
    rw [Text.slash_mem_encode]
    simp [hfront, hback, hdigits]

variable {folder : Path}

theorem clean_program (h : folder.Clean) (n : Nat) : (program folder n).Clean :=
  Path.clean_child h (isName_numbered (by decide) (by decide) (by decide) n)

theorem clean_output (h : folder.Clean) (n : Nat) : (output folder n).Clean :=
  Path.clean_child h (isName_numbered (by decide) (by decide) (by decide) n)

theorem outputName_inj {m n : Nat} (h : outputName m = outputName n) : m = n := by
  have hchars := congrArg String.toList h
  simp only [outputName, Text.Decimal.ofNat, String.toList_append, String.toList_ofList] at hchars
  have hdigits := List.append_cancel_left (List.append_cancel_right hchars)
  rw [← Text.Decimal.valueOf_digitsOf m, hdigits, Text.Decimal.valueOf_digitsOf]

theorem head?_exampleName (n : Nat) : (Text.encode (exampleName n)).head? = some 0x65 := by
  rw [exampleName, Text.encode_append, Text.encode_append, List.append_assoc, List.head?_append]
  rfl

theorem head?_outputName (n : Nat) : (Text.encode (outputName n)).head? = some 0x6f := by
  rw [outputName, Text.encode_append, Text.encode_append, List.append_assoc, List.head?_append]
  rfl

theorem getLast?_program (h : folder.Clean) {d : Disk} {n : Nat} {t : Location}
    (ht : d.place? (program folder n).text = some t) : t.getLast? = some (Text.encode (exampleName n)) := by
  rw [Disk.getLast?_of_place? ht, Disk.part_text (clean_program h n) rfl]

theorem getLast?_output (h : folder.Clean) {d : Disk} {n : Nat} {t : Location}
    (ht : d.place? (output folder n).text = some t) : t.getLast? = some (Text.encode (outputName n)) := by
  rw [Disk.getLast?_of_place? ht, Disk.part_text (clean_output h n) rfl]

theorem not_traces {t : Location} {name : Octets} {level : Int} (ht : t.getLast? = some name)
    (hname : name.head? ≠ some 0x64) : ¬ Runner.traces level t := by
  rintro ⟨-, rfl⟩
  obtain rfl : Runner.traceFile = name := Option.some.inj ht
  exact hname (by decide)

/-- The places of the outputs of the given examples. -/
def outputs (folder : Path) (d : Disk) (ns : List Nat) (l : Location) : Prop :=
  ∃ n ∈ ns, d.place? (output folder n).text = some l

/-- Outputs of different examples stand in different places, and apart from the trace. -/
theorem not_outputs (hf : folder.Clean) {n : Nat} {ns : List Nat} (hn : n ∉ ns) {d e : Disk} {level : Int}
    {t : Location} (ht : d.place? (output folder n).text = some t) :
    ¬ (outputs folder e ns t ∨ Runner.traces level t) := by
  have hlast := getLast?_output hf ht
  rintro (⟨k, hk, hplace⟩ | htrace)
  · have hlast' := getLast?_output hf hplace
    rw [hlast] at hlast'
    exact hn (outputName_inj (Text.encode_inj (Option.some.inj hlast')) ▸ hk)
  · exact not_traces hlast (by simp [head?_outputName]) htrace

/-- An output is no program. -/
theorem output_ne_program (hf : folder.Clean) {m n : Nat} {d e : Disk} {t : Location}
    (ht : d.place? (program folder m).text = some t) : e.place? (output folder n).text ≠ some t := by
  intro hplace
  have hlast := (getLast?_program hf ht).symm.trans (getLast?_output hf hplace)
  have hheads := head?_exampleName m
  rw [Option.some.inj hlast, head?_outputName] at hheads
  exact absurd hheads (by decide)

/-- The output of the example holds the value of its program. -/
def Done (fuel : Nat) (level : Int) (folder : Path) (d e : Disk) (n : Nat) : Prop :=
  ∃ text v, d.HasText (program folder n).text text ∧ Yields fuel level (Tolerant.parse text) v ∧
    e.read (output folder n).text = .ok (Text.encode v.text)

/-- The given examples have been run, and nothing has changed but their outputs and the trace. -/
structure After (fuel : Nat) (level : Int) (folder : Path) (ns : List Nat) (d e : Disk) : Prop where
  done : ∀ n ∈ ns, Done fuel level folder d e n
  keeps : d.Keeps (fun l => outputs folder d ns l ∨ Runner.traces level l) e

variable {fuel : Nat} {level : Int}

theorem After.nil {d e : Disk} (h : d.Keeps (Runner.traces level) e) : After fuel level folder [] d e :=
  ⟨nofun, h.mono fun _ ht => .inr ht⟩

/-- One more example in front. Its output is not that of a later one, nor the program of one. -/
theorem After.cons (hf : folder.Clean) {n : Nat} {ns : List Nat} (hn : n ∉ ns) {d d' e : Disk} {text : String}
    {v : Value} (htext : d.HasText (program folder n).text text)
    (hwrote : Wrote fuel level (Tolerant.parse text) (output folder n).text d d' v)
    (h : After fuel level folder ns d' e) : After fuel level folder (n :: ns) d e := by
  have hplaces : ∀ path, d'.place? path = d.place? path := hwrote.keeps.place?_eq
  refine ⟨fun m hm => ?_, (hwrote.keeps.trans h.keeps).mono fun l hl => ?_⟩
  · rcases List.mem_cons.1 hm with rfl | hm
    · exact ⟨text, v, htext, hwrote.yields, h.keeps.read hwrote.read fun t ht => not_outputs hf hn ht⟩
    · obtain ⟨text', v', htext', hyields, hread⟩ := h.done m hm
      refine ⟨text', v', hwrote.keeps.symm.hasText htext' fun t ht => ?_, hyields, hread⟩
      rintro (hplace | htrace)
      · exact output_ne_program hf ht hplace
      · exact not_traces (getLast?_program hf ht) (by simp [head?_exampleName]) htrace
  · rcases hl with (hl | hl) | ⟨k, hk, hl⟩ | hl
    · exact .inl ⟨n, List.mem_cons_self, hl⟩
    · exact .inr hl
    · exact .inl ⟨k, List.mem_cons_of_mem n hk, hplaces _ ▸ hl⟩
    · exact .inr hl

end Examples

/-! ## Commands -/

namespace Command

namespace Task

/-- What a task that was done has changed, and printed: it names the file that it has changed, or has changed the
outputs of all examples. -/
def Succeeded (fuel : Nat) (level : Int) (d e : Disk) (printed : Octets) : Task → Prop
  | .check file => printed = line ((Path.ofText file).text ++ (": ok" : Octets)) ∧ e = d
  | .examples folder => Text.IsText printed ∧
      Examples.After fuel level (.ofText folder) (List.range' 1 exampleCount.toNat) d e
  | task => ∃ path bytes, task.output? = some path ∧ printed = line path.text ∧ e.read path.text = .ok bytes ∧
      d.Keeps (fun l => d.place? path.text = some l ∨ Runner.traces level l) e

variable {fuel : Nat} {level : Int} {d e : Disk} {r : Except Failure Octets}

theorem Succeeded.isText {task : Task} {printed : Octets} (htexts : ∀ text ∈ task.texts, Text.IsText text)
    (h : task.Succeeded fuel level d e printed) : Text.IsText printed := by
  have named : ∀ path ∈ task.output?, Text.IsText (line path.text) := fun path hpath =>
    (output?_isText htexts path hpath).text.append (.encode "\n")
  cases task with
  | check file =>
    obtain ⟨rfl, -⟩ := h
    exact ((Path.isText_ofText (htexts file List.mem_cons_self)).text.append (.encode _)).append (.encode "\n")
  | examples folder => exact h.1
  | emit | replay | execute =>
    obtain ⟨path, -, hpath, rfl, -⟩ := h
    exact named path hpath

end Task

variable {outlet : Outlet} {reading : Reading} {fuel : Nat} {words : List Octets} {d : Disk} {r : Result}

theorem Asks.isText {level : Nat} {task : Task} (h : Asks reading words level task)
    (hwords : ∀ word ∈ words, Text.IsText word) : ∀ text ∈ task.texts, Text.IsText text := by
  obtain ⟨s, hs, hplan, -⟩ := h
  exact (settle_isText hwords hs).plan hplan

/-- An output file whose name is no text is written, and cannot be named. -/
example : (invoke .text .late 9 ["p", "-o", [0x6f, 0xff]] { entries := [(["p"], .file (Text.encode "print 7"))] }).map
    (fun r => (r.ending, r.output, r.disk.bytes? [0x6f, 0xff])) =
    some (.escaped (.unprintable { offset := 1, first := 0xff, count := 1 }), [], some [55]) := by decide +kernel

end Command

end LineLang
