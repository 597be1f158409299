import LineLang.Command.Run
import LineLang.Proofs.Jobs
import LineLang.Proofs.Octets
import LineLang.Proofs.StoredTree

/-!
# Stored trees run as their programs

* `Job.Twins m src ast j j' P` : on disks that agree but for `m`, the two jobs end alike. Both change the disks in the
  same way, and what they give satisfies `P`;
* `Job.Steady m src ast j` : a job that ends alike on such disks, with `Job.Twins.bind` and one rule for each operation;
* `Job.run_storedTree` : the tree of a text is loaded from a file that holds its datum;
* `Command.Asks words level task` : the words ask for the task, at the given verbosity;
* `Command.stored_tree_runs_as_source` : a tree that was stored and is run leaves what the program itself does.
-/

namespace LineLang

/-! ## Jobs on two disks -/

/-- The failures of a program run from the file `src` and from the stored tree `ast`. -/
inductive Failure.Alike (src ast : Octets) : Failure → Failure → Prop where
  | noValue : Alike src ast (.noValue src) (.noValue ast)
  | stopped (e : Fault) : Alike src ast (.stopped e) (.stopped e)
  | disk (path : Octets) {o o' : Obstacle} (h : o.Alike o') : Alike src ast (.disk ⟨o, path⟩) (.disk ⟨o', path⟩)
  | unprintable (e : Text.EncodeFault) : Alike src ast (.unprintable e) (.unprintable e)

namespace Job

variable {α β : Type}

/-- Two jobs have ended alike, on disks that agree but for `m`. -/
inductive Matched (m : Location) (src ast : Octets) (P : α → Disk → Disk → Prop) :
    Option (Except Failure α × Disk) → Option (Except Failure α × Disk) → Prop where
  | endless : Matched m src ast P none none
  | done {a : α} {d d' : Disk} (h : Disk.Twin m d d') (hp : P a d d') :
    Matched m src ast P (some (.ok a, d)) (some (.ok a, d'))
  | failed {e e' : Failure} {d d' : Disk} (h : Disk.Twin m d d') (he : e.Alike src ast e') :
    Matched m src ast P (some (.error e, d)) (some (.error e', d'))

def Twins (m : Location) (src ast : Octets) (j j' : Job α) (P : α → Disk → Disk → Prop) : Prop :=
  ∀ d d', Disk.Twin m d d' → Matched m src ast P (j.run.run d) (j'.run.run d')

abbrev Steady (m : Location) (src ast : Octets) (j : Job α) : Prop := Twins m src ast j j fun _ _ _ => True

namespace Twins

variable {m : Location} {src ast : Octets}

theorem pure (a : α) : Steady m src ast (pure a) := fun _ _ h => .done h trivial

theorem throw {e e' : Failure} (h : e.Alike src ast e') {P : α → Disk → Disk → Prop} :
    Twins m src ast (throw e) (throw e') P := fun _ _ hd => .failed hd h

theorem bind {j j' : Job α} {f f' : α → Job β} {P : α → Disk → Disk → Prop} {Q : β → Disk → Disk → Prop}
    (hj : Twins m src ast j j' P)
    (hf : ∀ a d d', Disk.Twin m d d' → P a d d' → Matched m src ast Q ((f a).run.run d) ((f' a).run.run d')) :
    Twins m src ast (j >>= f) (j' >>= f') Q := by
  intro d d' h
  have hm := hj d d' h
  rw [run_bind, run_bind]
  generalize j.run.run d = r at hm
  generalize j'.run.run d' = r' at hm
  cases hm with
  | endless => exact .endless
  | done h hp => exact hf _ _ _ h hp
  | failed h he => exact .failed h he

theorem openFile (mode : WriteMode) (path : Octets) : Steady m src ast (openFile mode path) := by
  intro d d' h
  have ho := h.locate mode path
  rw [run_openFile, run_openFile]
  generalize d.locate mode path = r at ho
  generalize d'.locate mode path = r' at ho
  cases ho with
  | both l ht => exact .done ht trivial
  | refused ho => exact .failed h (.disk path ho)

theorem append (l : Location) (text : String) : Steady m src ast (append l text) :=
  fun _ _ h => .done (h.append l text) trivial

theorem write (path : Octets) (text : String) : Twins m src ast (write path text) (write path text) fun _ d d' =>
    d.bytes? path = some (Text.encode text) ∧ d'.bytes? path = some (Text.encode text) := by
  intro d d' h
  have ho := h.locate .truncate path
  rw [run_write, run_write]
  cases hl : d.locate .truncate path with
  | error o =>
    rw [hl] at ho
    generalize d'.locate .truncate path = r' at ho
    cases ho with
    | refused ho => exact .failed h (.disk path ho)
  | ok opened =>
    rw [hl] at ho
    cases hl' : d'.locate .truncate path with
    | error o =>
      rw [hl'] at ho
      cases ho
    | ok opened' =>
      rw [hl'] at ho
      cases ho with
      | both l ht =>
        obtain ⟨-, -, hread⟩ := Disk.locate_spec hl text
        obtain ⟨-, -, hread'⟩ := Disk.locate_spec hl' text
        refine .done (ht.append l text) ⟨?_, ?_⟩
        · rw [Disk.bytes?, hread]
          rfl
        · rw [Disk.bytes?, hread']
          rfl

theorem opened (r : Runner) (mode : WriteMode) : Steady m src ast (r.opened mode) := by
  unfold Runner.opened
  split
  · exact (openFile mode Runner.traceFile).bind fun l _ _ h _ => .done h trivial
  · exact pure r

theorem emit (r : Runner) (text : String) : Steady m src ast (r.emit text) := by
  unfold Runner.emit
  split
  · next l _ => exact (append l text).bind fun _ _ _ h _ => .done h trivial
  · exact pure text

theorem report (r : Runner) (fuel : Nat) (program : Node) (store : Store) :
    Steady m src ast (match LineLang.run r.level fuel program store with
      | none => fun _ => none
      | some report => do
        let _ ← r.emit report.trace
        return ⟨report.outcome, report.store, { r with trace := none }⟩ : Job Runner.Ran) := by
  split
  · exact fun _ _ _ => .endless
  · next report _ => exact (emit r report.trace).bind fun _ _ _ h _ => .done h trivial

theorem run (r : Runner) (fuel : Nat) (program : Node) (store : Store) :
    Steady m src ast (r.run fuel program store) := by
  unfold Runner.run
  dsimp only
  split
  · exact (pure r).bind fun r d d' h _ => report r fuel program store d d' h
  · exact (opened r .append).bind fun r d d' h _ => report r fuel program store d d' h

theorem value (r : Runner) (fuel : Nat) (program : Node) :
    Steady m src ast (r.value fuel program) := by
  unfold Runner.value
  refine (run r fuel program .empty).bind fun ran _ _ h _ => ?_
  split
  · exact .done h trivial
  · next e _ => exact .failed h (.stopped e)

/-- The value is written, or missing, whichever file the program came from. -/
theorem writeValue (dst : Octets) (v : Value) :
    Twins m src ast (writeValue src dst v) (writeValue ast dst v) fun _ d d' =>
      ∃ bytes, d.bytes? dst = some bytes ∧ d'.bytes? dst = some bytes := by
  unfold LineLang.writeValue
  split
  · exact (write dst v.text).bind fun _ _ _ h hb => .done h ⟨_, hb⟩
  · exact throw .noValue

end Twins

/-- Runs a program, writes its value to the file `dst` and names that file. The program comes from `src`. -/
def runTo (fuel : Nat) (level : Int) (program : Node) (src dst : Octets) : Job Octets := do
  let r ← Runner.start level .truncate
  let v ← r.value fuel program
  let _ ← writeValue src dst v
  return Command.Task.line dst

theorem twins_runTo (m : Location) (src ast : Octets) (fuel : Nat) (level : Int) (program : Node) (dst : Octets) :
    Twins m src ast (runTo fuel level program src dst) (runTo fuel level program ast dst) fun _ d d' =>
      ∃ bytes, d.bytes? dst = some bytes ∧ d'.bytes? dst = some bytes := by
  refine (Twins.opened { level } .truncate).bind fun r _ _ h _ => ?_
  refine (Twins.value r fuel program).bind (fun v _ _ h _ => ?_) _ _ h
  exact (Twins.writeValue dst v).bind (fun _ _ _ h hb => .done h hb) _ _ h

/-! ## Files of programs and trees -/

/-- Looking at a file changes nothing. -/
theorem run_content (path : Path) (failure : Failure) (d : Disk) : ∃ r, (content path failure).run.run d = some (r, d) ∧
    ∀ bytes, d.read path.text = .ok bytes ↔ r = .ok bytes := by
  have hget : (get : Job Disk).run.run d = some (.ok d, d) := rfl
  rw [content, run_bind, hget]
  dsimp only
  cases d.read path.text with
  | ok bytes =>
    exact ⟨.ok bytes, rfl, fun _ => ⟨fun h => congrArg _ (Except.ok.inj h), fun h => congrArg _ (Except.ok.inj h)⟩⟩
  | error o =>
    have hfail : ∀ (x : Failure) (bytes : List UInt8),
        (Except.error o : Except Obstacle (List UInt8)) = .ok bytes ↔ (.error x : Except Failure _) = .ok bytes :=
      fun x bytes => iff_of_false (by rintro ⟨⟩) (by rintro ⟨⟩)
    cases o with
    | _ => exact ⟨.error _, rfl, hfail _⟩

/-- Reading a program changes nothing. -/
theorem run_source (path : Path) (d : Disk) : ∃ r, (source path).run.run d = some (r, d) := by
  obtain ⟨r, hr, -⟩ := run_content path (.noProgram path.text) d
  rw [source, run_bind, hr]
  cases r with
  | error e => exact ⟨_, rfl⟩
  | ok bytes =>
    dsimp only
    split
    · exact ⟨_, rfl⟩
    · exact ⟨_, rfl⟩

/-- The text of a tree's datum, decoded from its octets. -/
theorem textOf_write (layout : Json.Layout) {j : Json} (h : j.Plain) :
    textOf (Text.encode (j.write layout)) = .ok (j.write layout).toList := by
  have hcr : '\r' ∉ (j.write layout).toList := by
    rw [Json.write, String.toList_ofList]
    exact Json.carriageReturn_not_mem_writeAt layout h 0
  rw [textOf, Text.decode_encode]
  exact congrArg Except.ok (Text.unifyLineEnds_eq_self hcr)

/-- The tree of a text is loaded from a file that holds its datum. -/
theorem run_storedTree {path : Path} {d : Disk} {n : Node} (layout : Json.Layout) (hn : n.Grown)
    (h : d.read path.text = .ok (Text.encode (n.toJson.write layout))) :
    (storedTree path).run.run d = some (.ok n, d) := by
  obtain ⟨r, hr, hok⟩ := run_content path (.noTree path.text) d
  rw [storedTree, run_bind, hr, (hok _).1 h]
  simp only [textOf_write layout hn.plain, Json.read_write layout hn.plain, Node.ofJson_toJson]
  rfl

end Job

namespace Command

/-! ## Command lines -/

def Asks (reading : Reading) (words : List Octets) (level : Nat) (task : Task) : Prop :=
  ∃ s, settle reading words = .ok s ∧ s.plan = .ok task ∧ s.verbosity = level

variable {reading : Reading} {words : List Octets} {level : Nat} {task : Task}

/-- What the words ask for, computed. -/
theorem asks_of_eq
    (h : ((settle reading words).toOption.bind fun s => s.plan.toOption.map fun t => (s.verbosity, t)) =
      some (level, task)) : Asks reading words level task := by
  obtain ⟨s, hs, hp⟩ := Option.bind_eq_some_iff.1 h
  obtain ⟨t, ht, heq⟩ := Option.map_eq_some_iff.1 hp
  obtain ⟨hv, rfl⟩ := Prod.mk.inj heq
  have ok_of_toOption : ∀ {ε α : Type} {x : Except ε α} {a : α}, x.toOption = some a → x = .ok a := by
    intro ε α x a hx
    cases x with
    | error e => cases hx
    | ok b => rw [Option.some.inj hx]
  exact ⟨s, ok_of_toOption hs, ok_of_toOption ht, hv⟩

theorem Asks.invoke (h : Asks reading words level task) (outlet : Outlet) (fuel : Nat) (d : Disk) :
    invoke outlet reading fuel words d =
      ((task.perform fuel level).run.run d).map fun r => finish outlet r.1 r.2 := by
  obtain ⟨s, hs, hp, hv⟩ := h
  rw [Command.invoke, hs]
  dsimp only
  rw [hp, hv]
  dsimp only
  cases (task.perform fuel level).run.run d <;> rfl

theorem failed_spec (e : Failure) (d : Disk) :
    (failed e d).ending ≠ .done ∧ (failed e d).output = [] ∧ (failed e d).disk = d := by
  cases hr : e.isReported <;> simp [failed, hr]

/-- A command that has done its task leaves what the task leaves. -/
theorem Asks.run_of_done (h : Asks reading words level task) {outlet : Outlet} {fuel : Nat} {d : Disk} {r : Result}
    (hr : Command.invoke outlet reading fuel words d = some r) (hd : r.ending = .done) :
    (task.perform fuel level).run.run d = some (.ok r.output, r.disk) := by
  rw [h.invoke] at hr
  obtain ⟨⟨outcome, e⟩, hrun, rfl⟩ := Option.map_eq_some_iff.1 hr
  cases outcome with
  | error x => exact absurd hd (failed_spec x e).1
  | ok printed =>
    unfold finish at hd ⊢
    dsimp only at hd ⊢
    split at hd
    · exact absurd hd (failed_spec _ e).1
    · exact hrun

/-- A program file that can be read is run. -/
theorem run_execute {fuel : Nat} {level : Int} {file out : Octets} {source : String} {d : Disk}
    (h : (Job.source (.ofText file)).run.run d = some (.ok source, d)) :
    ((Task.execute file (some out)).perform fuel level).run.run d =
      (Job.runTo fuel level (Tolerant.parse source) (Path.ofText file).text (Path.ofText out).text).run.run d := by
  have hperform : (Task.execute file (some out)).perform fuel level =
      (Job.source (.ofText (Path.ofText file).text) >>= fun s =>
        Job.runTo fuel level (Tolerant.parse s) (Path.ofText file).text (Path.ofText out).text) := by
    simp only [Task.perform, Task.executeOutput?, interpretFile, Job.runTo, bind_assoc]
  rw [hperform, Path.ofText_text (Path.clean_ofText file), Job.run_bind, h]

/-- A stored tree that can be loaded is run. -/
theorem run_replay {fuel : Nat} {level : Int} {file out : Octets} {n : Node} {d : Disk}
    (h : (Job.storedTree (.ofText file)).run.run d = some (.ok n, d)) :
    ((Task.replay file (some out)).perform fuel level).run.run d =
      (Job.runTo fuel level n (Path.ofText file).text (Path.ofText out).text).run.run d := by
  have hperform : (Task.replay file (some out)).perform fuel level =
      (Job.storedTree (.ofText file) >>= fun n =>
        Job.runTo fuel level n (Path.ofText file).text (Path.ofText out).text) := rfl
  rw [hperform, Job.run_bind, h]

def treeFile (file : Octets) : Path := Task.emitOutput (Path.ofText file)

theorem getLast?_treeName (name : Octets) : (name ++ (".ast.json" : Octets)).getLast? = some 0x6e := by
  have hlast : (".ast.json" : Octets).getLast? = some 0x6e := by decide
  rw [List.getLast?_append, hlast, Option.some_or]

theorem treeFile_clean (file : Octets) : (treeFile file).Clean := by
  have hclean := Path.clean_ofText file
  have hname : Octet.slash ∉ (Path.ofText file).name := by
    unfold Path.name
    cases hl : (Path.ofText file).parts.getLast? with
    | none => exact List.not_mem_nil
    | some name => exact (hclean name (List.mem_of_getLast? hl)).2
  have hlast := getLast?_treeName (Path.ofText file).name
  refine Path.clean_withName hclean ⟨?_, ?_⟩
  · simp only [Path.isName, Bool.and_eq_true, bne_iff_ne]
    refine ⟨fun h => ?_, fun h => ?_⟩
    · rw [h] at hlast
      exact absurd hlast (by decide)
    · rw [h] at hlast
      exact absurd hlast (by decide)
  · rw [List.mem_append, not_or]
    exact ⟨hname, by decide⟩

theorem part_treeFile (file : Octets) :
    (Disk.part (treeFile file).text).last = (Path.ofText file).name ++ (".ast.json" : Octets) := by
  rw [Disk.part_text (treeFile_clean file) rfl]

/-- The file of a tree is not the trace file. -/
theorem treeFile_ne_traceFile (file : Octets) (l : Location) :
    l ++ [(Disk.part (treeFile file).text).last] ≠ [Runner.traceFile] := by
  intro h
  have hname := congrArg List.getLast? h
  rw [List.getLast?_concat, part_treeFile, List.getLast?_singleton] at hname
  have hlast := getLast?_treeName (Path.ofText file).name
  rw [Option.some.inj hname] at hlast
  exact absurd hlast (by decide)

/-- What writing the tree of a program leaves. -/
theorem run_emit {fuel : Nat} {level : Int} {file printed : Octets} {d e : Disk}
    (h : ((Task.emit file).perform fuel level).run.run d = some (.ok printed, e)) :
    ∃ source, (Job.source (.ofText file)).run.run d = some (.ok source, d) ∧
      printed = Task.line (treeFile file).text ∧
      (∃ l, Disk.Twin (l ++ [(Disk.part (treeFile file).text).last]) d e) ∧
      e.read (treeFile file).text = .ok (Text.encode ((Tolerant.parse source).toJson.write .indented)) := by
  have hperform : (Task.emit file).perform fuel level = (Job.source (.ofText file) >>= fun source =>
      Job.write (treeFile file).text ((Tolerant.parse source).toJson.write .indented) >>= fun _ =>
      pure (Task.line (treeFile file).text)) := rfl
  obtain ⟨r, hr⟩ := Job.run_source (.ofText file) d
  rw [hperform, Job.run_bind, hr] at h
  cases r with
  | error x => cases h
  | ok source =>
    dsimp only at h
    rw [Job.run_bind] at h
    split at h
    · cases h
    · next u e' hw =>
      obtain ⟨hp, rfl⟩ := Prod.mk.inj (Option.some.inj h)
      exact ⟨source, hr, (Except.ok.inj hp).symm, Job.write_spec hw⟩
    · cases h

/-! ## Results -/

/-- The command has told that the program of the file has no value. -/
def Result.LacksValue (file : Octets) (r : Result) : Prop :=
  r.ending = .status 1 ∧ r.errors = "Error: " ++ Text.shown file ++ " produced no value\n"

/-- The results of running the program of `src`, and the tree in `ast`, with the value going to `out`. -/
structure Result.Agrees (src ast out : Octets) (r r' : Result) : Prop where
  ending : r'.ending = r.ending
  printed : r'.output = r.output
  written : r.ending = .done → ∃ bytes, r.disk.bytes? out = some bytes ∧ r'.disk.bytes? out = some bytes
  trace : r'.disk.bytes? Runner.traceFile = r.disk.bytes? Runner.traceFile
  noValue : r.LacksValue src ↔ r'.LacksValue ast

theorem lacksValue_noValue (file : Octets) (d : Disk) : (failed (.noValue file) d).LacksValue file := by
  refine ⟨rfl, ?_⟩
  show "Error: " ++ (Text.shown file ++ " produced no value") ++ "\n" = _
  rw [← String.toList_inj]
  simp

/-- The wording of a fault that is reported ends with a quoted path. -/
theorem message_ends {e : DiskFault} (h : e.obstacle ≠ .nulByte) :
    ∃ front mark, e.message.toList = front ++ [mark] ∧ mark ≠ 'e' := by
  have hquoted : ∀ start : String, ∃ front mark, (start ++ Text.quotedOctets e.path).toList = front ++ [mark] ∧
      mark ≠ 'e' := by
    intro start
    have hmark : ∀ cs, Text.quoteMark cs ≠ 'e' := by
      intro cs
      unfold Text.quoteMark
      split <;> decide
    obtain ⟨cs, inner, hquoted⟩ : ∃ cs inner, (Text.quotedOctets e.path).toList = inner ++ [Text.quoteMark cs] :=
      ⟨_, _, by rw [Text.quotedOctets, String.toList_ofList, ← List.cons_append]⟩
    exact ⟨_, _, by rw [String.toList_append, hquoted, ← List.append_assoc], hmark cs⟩
  unfold DiskFault.message
  split
  · exact hquoted _
  · exact hquoted _
  · exact hquoted _
  · exact hquoted _
  · next ho => exact absurd ho h

theorem not_lacksValue_disk (e : DiskFault) (file : Octets) (d : Disk) :
    ¬(failed (.disk e) d).LacksValue file := by
  rintro ⟨hending, herrors⟩
  unfold failed at hending herrors
  by_cases ho : e.obstacle = .nulByte
  · have hr : (Failure.disk e).isReported = false := by simp [Failure.isReported, ho]
    simp [hr] at hending
  · have hr : (Failure.disk e).isReported = true := by simp [Failure.isReported, ho]
    obtain ⟨front, mark, hm, hmark⟩ := message_ends ho
    simp only [hr, if_true, show (Failure.disk e).message = e.message from rfl] at herrors
    -- both texts end with a line feed, in front of which they differ
    have hline : "Error: ".toList ++ front ++ [mark] ++ ['\n'] =
        "Error: ".toList ++ (Text.shown file).toList ++ " produced no valu".toList ++ ['e'] ++ ['\n'] := by
      have := congrArg String.toList herrors
      simpa [hm] using this
    have hlast := congrArg List.getLast? (List.append_cancel_right hline)
    rw [List.getLast?_concat, List.getLast?_concat] at hlast
    exact hmark (Option.some.inj hlast)

theorem read_traceFile (d : Disk) : d.read Runner.traceFile =
    match d.at? [Runner.traceFile] with
    | none => .error .absent
    | some .folder => .error .isFolder
    | some (.file bytes) => .ok bytes := by
  have hpart : Disk.part Runner.traceFile = ⟨false, [], Runner.traceFile, false⟩ := by decide
  have hrefusal : Disk.refusal? Runner.traceFile = none := by decide
  have hlen : ¬Disk.nameLimit < Runner.traceFile.length := by decide
  have hdots : Disk.isDots Runner.traceFile = false := by decide
  have hread := Disk.read_eq d Runner.traceFile
  simp only [hrefusal, hpart, Disk.folderOf, Disk.walk, hdots, Bool.false_eq_true, if_false, if_neg hlen] at hread
  exact hread

theorem bytes?_traceFile {m : Location} (hm : m ≠ [Runner.traceFile]) {d d' : Disk} (h : Disk.Twin m d d') :
    d'.bytes? Runner.traceFile = d.bytes? Runner.traceFile := by
  rw [Disk.bytes?, Disk.bytes?, read_traceFile, read_traceFile, h.other (Ne.symm hm)]

theorem agrees_of_failure {m : Location} (hm : m ≠ [Runner.traceFile]) {src ast out : Octets} {e e' : Failure}
    {d d' : Disk} (h : Disk.Twin m d d') (he : e.Alike src ast e') :
    Result.Agrees src ast out (failed e d) (failed e' d') := by
  obtain ⟨hdone, hprinted, hdisk⟩ := failed_spec e d
  obtain ⟨-, hprinted', hdisk'⟩ := failed_spec e' d'
  have hends : (failed e' d').ending = (failed e d).ending ∧
      ((failed e d).LacksValue src ↔ (failed e' d').LacksValue ast) := by
    cases he with
    | noValue => exact ⟨rfl, fun _ => lacksValue_noValue ast d', fun _ => lacksValue_noValue src d⟩
    | stopped e => exact ⟨rfl, iff_of_false (fun h => nomatch h.1) fun h => nomatch h.1⟩
    | @disk path o o' ho =>
      refine ⟨?_, iff_of_false (not_lacksValue_disk _ src d) (not_lacksValue_disk _ ast d')⟩
      rcases ho with rfl | ⟨rfl | rfl, rfl | rfl⟩
      · unfold failed
        split <;> rfl
      all_goals rfl
    | unprintable e => exact ⟨rfl, iff_of_false (fun h => nomatch h.1) fun h => nomatch h.1⟩
  exact ⟨hends.1, hprinted'.trans hprinted.symm, fun hd => absurd hd hdone,
    by rw [hdisk, hdisk', bytes?_traceFile hm h], hends.2⟩

/-- Jobs that end alike leave results that agree. -/
theorem agrees_of_matched {m : Location} (hm : m ≠ [Runner.traceFile]) {src ast out : Octets}
    {x x' : Option (Except Failure Octets × Disk)} (outlet : Outlet)
    (h : Job.Matched m src ast (fun _ d d' => ∃ bytes, d.bytes? out = some bytes ∧ d'.bytes? out = some bytes) x x') :
    Option.Rel (Result.Agrees src ast out) (x.map fun r => finish outlet r.1 r.2)
      (x'.map fun r => finish outlet r.1 r.2) := by
  cases h with
  | endless => exact .none
  | @done a d d' h hb =>
    refine .some ?_
    unfold finish
    dsimp only
    split
    · next e _ => exact agrees_of_failure hm h (.unprintable e)
    · exact ⟨rfl, rfl, fun _ => hb, bytes?_traceFile hm h,
        iff_of_false (fun h => nomatch h.1) fun h => nomatch h.1⟩
  | failed h he => exact .some (agrees_of_failure hm h he)

/-- The tree of a text is read back from the text of its datum, in either layout. So a program whose tree is stored
and then run leaves what running the program leaves: the value in the same file, the same trace, and the complaint
that it has no value in the same cases. -/
theorem stored_tree_runs_as_source :
    (∀ (s : String) (layout : Json.Layout), ∃ j,
      Json.read ((Tolerant.parse s).toJson.write layout).toList = .ok j ∧ Node.ofJson j = .ok (Tolerant.parse s)) ∧
    (∀ {outlet : Outlet} {reading : Reading} {d : Disk} {n level' level : Nat}
      {emitting replaying running : List Octets} {file ast out : Octets} {stored : Result},
      Asks reading emitting level' (.emit file) → invoke outlet reading n emitting d = some stored →
      stored.ending = .done → stored.output = Task.line ast →
      Asks reading replaying level (.replay ast (some out)) → Asks reading running level (.execute file (some out)) →
      ∀ fuel, Option.Rel (Result.Agrees (Path.ofText file).text ast (Path.ofText out).text)
        (invoke outlet reading fuel running d) (invoke outlet reading fuel replaying stored.disk)) := by
  refine ⟨fun s layout => ?_, ?_⟩
  · have hplain := (Tolerant.grown_parse s).plain
    exact ⟨_, Json.read_write layout hplain, Node.ofJson_toJson _⟩
  · intro outlet reading d n level' level emitting replaying running file ast out stored hemit hinvoke hdone hast
      hreplay hrun fuel
    obtain ⟨source, hsource, hprinted, ⟨l, htwin⟩, hread⟩ := run_emit (hemit.run_of_done hinvoke hdone)
    obtain rfl : ast = (treeFile file).text := by
      rw [hast] at hprinted
      exact List.append_cancel_right hprinted
    have hpath := Path.ofText_text (treeFile_clean file)
    have hstored : (Job.storedTree (.ofText (treeFile file).text)).run.run stored.disk =
        some (.ok (Tolerant.parse source), stored.disk) := by
      rw [hpath]
      exact Job.run_storedTree .indented (Tolerant.grown_parse source) hread
    rw [hrun.invoke, hreplay.invoke, run_execute hsource, run_replay hstored, hpath]
    exact agrees_of_matched (treeFile_ne_traceFile file l) outlet
      (Job.twins_runTo _ _ _ fuel level _ _ d stored.disk htwin)

/-- Lines of characters that belong to no lexeme, of which a quote, a backslash and a control character are escaped in
the stored tree, stand in front of the program. Its output is named by the path from the root. -/
theorem stored_tree_runs_as_source_illegal :
    let d : Disk := { entries := [(["p.cmm"], .file (Text.encode "\x22\n\x01 😀\\\nx = 7\nprint x * 6\n"))],
                      around := ["work", "home"] }
    ∃ stored r r', invoke .text .late 0 ["--emit-ast", "p.cmm"] d = some stored ∧ stored.ending = .done ∧
      stored.output = Task.line "p.cmm.ast.json" ∧
      invoke .text .late 9 ["-v", "p.cmm", "-o", "/home/work/out.txt"] d = some r ∧
      invoke .text .late 9 ["--ast", "p.cmm.ast.json", "-vo", "/home/work/out.txt"] stored.disk = some r' ∧
      r'.ending = .done ∧ r.disk.bytes? "out.txt" = some [52, 50] ∧
      r'.disk.bytes? "/home/work/out.txt" = some [52, 50] ∧
      r'.disk.bytes? "debug.txt" = r.disk.bytes? "debug.txt" := by
  intro d
  have hemit : Asks .late ["--emit-ast", "p.cmm"] 0 (.emit "p.cmm") := asks_of_eq (by decide +kernel)
  have hrun : Asks .late ["-v", "p.cmm", "-o", "/home/work/out.txt"] 1
      (.execute "p.cmm" (some ("/home/work/out.txt" : Octets))) := asks_of_eq (by decide +kernel)
  have hreplay : Asks .late ["--ast", "p.cmm.ast.json", "-vo", "/home/work/out.txt"] 1
      (.replay "p.cmm.ast.json" (some ("/home/work/out.txt" : Octets))) := asks_of_eq (by decide +kernel)
  have hstored : (invoke .text .late 0 ["--emit-ast", "p.cmm"] d).map (fun r => (r.ending, r.output)) =
      some (.done, Task.line "p.cmm.ast.json") := by decide +kernel
  have hran : (invoke .text .late 9 ["-v", "p.cmm", "-o", "/home/work/out.txt"] d).map
      (fun r => (r.ending, r.disk.bytes? "out.txt", r.disk.bytes? "/home/work/out.txt")) =
      some (.done, some [52, 50], some [52, 50]) := by decide +kernel
  obtain ⟨stored, hs, hsaid⟩ := Option.map_eq_some_iff.1 hstored
  obtain ⟨r, hr, hleft⟩ := Option.map_eq_some_iff.1 hran
  obtain ⟨hdone, hout⟩ := Prod.mk.inj hsaid
  obtain ⟨hrdone, hboth⟩ := Prod.mk.inj hleft
  obtain ⟨hbytes, habsolute⟩ := Prod.mk.inj hboth
  have hrel := stored_tree_runs_as_source.2 hemit hs hdone hout hreplay hrun 9
  rw [hr] at hrel
  generalize hr' : invoke .text .late 9 ["--ast", "p.cmm.ast.json", "-vo", "/home/work/out.txt"] stored.disk = x
    at hrel
  cases hrel with
  | @some _ r' hagrees =>
    obtain ⟨bytes, hb, hb'⟩ := hagrees.written hrdone
    have hpath : (Path.ofText "/home/work/out.txt").text = "/home/work/out.txt" := by decide
    rw [hpath] at hb hb'
    obtain rfl := Option.some.inj (habsolute.symm.trans hb)
    exact ⟨stored, r, r', hs, hdone, hout, hr, hr', hagrees.ending.trans hrdone, hbytes, hb', hagrees.trace⟩

end Command

end LineLang
