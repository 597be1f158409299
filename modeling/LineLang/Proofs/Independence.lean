import LineLang.Proofs.Outputs

/-!
# Examples do not depend on each other

* `Disk.Keeps.read_cases`, `Disk.Keeps.locate` : disks with the same folders give the same answers about places that
  have not changed;
* `comesTo_eq` : what a program file comes to is told by its own text;
* `Examples.planned` : what an example comes to, with the place of its output looked at;
* `Examples.Runs`, `Examples.run_example` : one example on a disk that earlier ones have changed;
* `Examples.exists_advanced` : the examples up to some number, with the rest of them as a parameter;
* `interpretExamples_independent` : a batch gives each example what it is given alone.
-/

namespace LineLang

namespace Disk

/-! ## The same answers -/

variable {W : Location → Prop} {d e : Disk}

/-- A path leads to a folder, which is still one, or to its place. -/
theorem Keeps.at?_of_place? (h : Keeps W d e) {path : Octets} {l : Location} (hw : d.folderOf (part path) = .ok l)
    (hW : ∀ t, d.place? path = some t → ¬ W t) :
    e.at? (d.down l (part path).last) = d.at? (d.down l (part path).last) := by
  by_cases hfolder : d.at? (d.down l (part path).last) = some .folder
  · rw [hfolder, h.folder, hfolder]
  · exact h.other (hW _ (place?_of_not_folder hw hfolder))

/-- A path whose place has not changed is read as before; only the reason why it leads nowhere can be another. -/
theorem Keeps.read_cases (h : Keeps W d e) {path : Octets} (hW : ∀ t, d.place? path = some t → ¬ W t) :
    e.read path = d.read path ∨
      ∃ o o' : Obstacle, o.Blocked ∧ o'.Blocked ∧ d.read path = .error o ∧ e.read path = .error o' := by
  rw [read_eq, read_eq]
  cases refusal? path with
  | some o => exact .inl rfl
  | none =>
    dsimp only
    rcases h.folderOf_cases (part path) with hw | ⟨o, o', ho, ho', hd, he⟩
    · rw [hw]
      cases hfolder : d.folderOf (part path) with
      | error o => exact .inl rfl
      | ok l =>
        dsimp only
        rw [h.down, h.at?_of_place? hfolder hW]
        exact .inl rfl
    · rw [hd, he]
      exact .inr ⟨o, o', ho, ho', rfl, rfl⟩

theorem map_ready (d : Disk) (mode : WriteMode) (l : Location) :
    (d.ready mode l).map Prod.fst = if d.at? l = some .folder then .error .isFolder else .ok l := by
  unfold ready
  cases hat : d.at? l with
  | none => cases mode <;> rfl
  | some entry =>
    cases entry with
    | folder => rfl
    | file bytes => cases mode <;> rfl

/-- A path that leads through folders is opened at the same place, or refused for the same reason. -/
theorem Keeps.locate (h : Keeps W d e) (mode : WriteMode) {path : Octets} {l : Location}
    (hw : d.folderOf (part path) = .ok l) :
    (e.locate mode path).map Prod.fst = (d.locate mode path).map Prod.fst := by
  rw [locate_eq, locate_eq, hw, (h.folderOf _ l).2 hw]
  split
  · rfl
  split
  · rfl
  dsimp only
  split
  · rfl
  split
  · rfl
  · simp only [map_ready, h.down, h.folder]

end Disk

/-! ## One example -/

/-- A program whose file has not changed is the same one; that a path leads nowhere is told in one way only. -/
theorem Job.sourceOf_eq {W : Location → Prop} {d e : Disk} (h : d.Keeps W e) {path : Path}
    (hW : ∀ t, d.place? path.text = some t → ¬ W t) : sourceOf path e = sourceOf path d := by
  unfold sourceOf
  rcases h.read_cases hW with hread | ⟨o, o', ho, ho', hd, he⟩
  · rw [hread]
  · rw [hd, he]
    rcases ho with rfl | rfl <;> rcases ho' with rfl | rfl <;> rfl

theorem comesTo_eq {W : Location → Prop} {d e : Disk} (h : d.Keeps W e) {src : Octets}
    (hW : ∀ t, d.place? (Path.ofText src).text = some t → ¬ W t) (fuel : Nat) (level : Int) :
    comesTo fuel level src e = comesTo fuel level src d := by
  unfold comesTo
  rw [Job.sourceOf_eq h hW]
  simp only [h.folder]

namespace Examples

def planned (fuel : Nat) (level : Int) (folder : Path) (d : Disk) (n : Nat) :
    Option (Except Failure (Value × String)) :=
  match comesTo fuel level (program folder n).text d with
  | some (.ok ran) =>
    match d.locate .truncate (output folder n).text with
    | .ok _ => some (.ok ran)
    | .error o => some (.error (.disk ⟨o, (output folder n).text⟩))
  | r => r

/-- The example has come to a value and a trace, which have been written. -/
structure Ran (level : Int) (mode : WriteMode) (dst : Octets) (ran : Value × String) (d e : Disk) : Prop where
  keeps : d.Keeps (fun l => d.place? dst = some l ∨ Runner.traces level l) e
  read : e.read dst = .ok (Text.encode ran.1.text)
  trace : 0 < level →
    e.at? Runner.tracePlace = some (.file (d.kept mode Runner.tracePlace ++ Text.encode ran.2))

variable {folder : Path} {fuel : Nat} {level : Int} {d e : Disk}

/-- The output stands in the folder of the program, to which the path of a program that was read has led. -/
theorem walk_output (hf : folder.Clean) {n : Nat} {v : Value}
    (h : HasValue fuel level (program folder n).text d v) :
    ∃ l, d.folderOf (Disk.part (output folder n).text) = .ok l := by
  obtain ⟨text, report, ⟨bytes, cs, hread, -⟩, -⟩ := h
  rw [Path.ofText_text (clean_program hf n)] at hread
  obtain ⟨-, -, -, -, l, hw, -⟩ := Disk.read_ok hread
  rw [Disk.part_text (clean_program hf n) rfl] at hw
  rw [Disk.part_text (clean_output hf n) rfl]
  exact ⟨l, hw⟩

/-- The output is another file than the trace, which is left as it was when the output is written. -/
theorem ran_of_locate (hf : folder.Clean) {n : Nat} {mode : WriteMode} {text : String} {d' : Disk} {t : Location}
    (htraced : Runner.Traced level mode text d d')
    (h : d'.locate .truncate (output folder n).text = .ok (t, e)) (v : Value) :
    Ran level mode (output folder n).text (v, text) d (e.append t v.text) := by
  obtain ⟨-, htwin, hread⟩ := Disk.locate_spec h v.text
  have hplace : d.place? (output folder n).text = some t := by
    rw [← htraced.keeps.place?_eq, Disk.place?_of_locate h]
  refine ⟨(htraced.keeps.trans htwin.keeps).mono fun l hl => ?_, hread, fun hl => ?_⟩
  · rcases hl with hl | rfl
    · exact .inr hl
    · exact .inl hplace
  · have hother : Runner.tracePlace ≠ t := fun ht =>
      not_traces (getLast?_output hf hplace) (by simp [head?_outputName]) ⟨hl, ht.symm⟩
    rw [htwin.other hother]
    cases htraced with
    | silent hl' => exact absurd hl (Int.not_lt.2 hl')
    | told _ _ file => exact file

/-- How the run of an example ends, by what the example comes to. -/
inductive Runs (level : Int) (mode : WriteMode) (dst : Octets) (d : Disk) :
    Option (Except Failure (Value × String)) → Option (Except Failure Nat × Disk) → Prop where
  | endless : Runs level mode dst d none none
  | failed {x : Failure} {e : Disk} (keeps : d.Keeps (Runner.traces level) e) :
      Runs level mode dst d (some (.error x)) (some (.error x, e))
  | ran {ran : Value × String} {n : Nat} {e : Disk} (count : n = ran.1.text.length)
      (written : Ran level mode dst ran d e) : Runs level mode dst d (some (.ok ran)) (some (.ok n, e))

theorem Runs.exists_ran {mode : WriteMode} {dst : Octets} {p : Option (Except Failure (Value × String))}
    {r : Option (Except Failure Nat × Disk)} (h : Runs level mode dst d p r) {ran : Value × String}
    (hp : p = some (.ok ran)) : ∃ e, Ran level mode dst ran d e ∧ r = some (.ok ran.1.text.length, e) := by
  cases h with
  | endless => cases hp
  | failed keeps => cases hp
  | @ran _ _ e count written =>
    obtain rfl := Except.ok.inj (Option.some.inj hp)
    exact ⟨e, written, count ▸ rfl⟩

/-- An example whose program has not changed is run as on the first disk. -/
theorem run_example (fuel : Nat) (level : Int) (n : Nat) (hf : folder.Clean) {W : Location → Prop} (h : d.Keeps W e)
    (hW : ∀ t, d.place? (program folder n).text = some t → ¬ W t) (mode : WriteMode) :
    Runs level mode (output folder n).text e (planned fuel level folder d n)
      ((interpretFile fuel level mode (program folder n).text (output folder n).text).run.run e) := by
  have hrun := run_interpretFile fuel level mode (program folder n).text (output folder n).text e
  have hsame : comesTo fuel level (program folder n).text e = comesTo fuel level (program folder n).text d :=
    comesTo_eq h (by rwa [Path.ofText_text (clean_program hf n)]) fuel level
  rw [hsame] at hrun
  unfold planned
  generalize hcomes : comesTo fuel level (program folder n).text d = c at hrun ⊢
  generalize (interpretFile fuel level mode (program folder n).text (output folder n).text).run.run e = r at hrun ⊢
  cases hrun with
  | endless => exact .endless
  | failed keeps => exact .failed keeps
  | @valued v text e' _ traced written =>
    obtain ⟨-, hvalue, hout⟩ := hasValue_of_comesTo hcomes
    obtain ⟨l, hw⟩ := walk_output hf hvalue
    -- the output is opened behind the trace, on a disk that still has the folders of `d`
    have hlocate := (h.trans traced.keeps).locate .truncate hw
    rw [written, run_writeValue, if_pos hout]
    dsimp only
    cases hd : d.locate .truncate (output folder n).text with
    | error o =>
      cases he : e'.locate .truncate (output folder n).text with
      | ok opened =>
        rw [hd, he] at hlocate
        cases hlocate
      | error o' =>
        rw [hd, he] at hlocate
        obtain rfl : o' = o := Except.error.inj hlocate
        exact .failed traced.keeps
    | ok opened =>
      cases he : e'.locate .truncate (output folder n).text with
      | ok opened' => exact .ran rfl (ran_of_locate hf traced he v)
      | error o' =>
        rw [hd, he] at hlocate
        cases hlocate

/-! ## One example after the other -/

/-- How an example opens the trace. -/
def traceMode (n : Nat) : WriteMode := if n = 1 then .truncate else .append

theorem run_interpretEach_cons (fuel : Nat) (level : Int) (folder : Path) (n : Nat) (ns : List Nat) (d : Disk) :
    (interpretEach fuel level folder (n :: ns)).run.run d =
      match (interpretFile fuel level (traceMode n) (program folder n).text (output folder n).text).run.run d with
      | none => none
      | some (.error x, e) => some (.error x, e)
      | some (.ok count, e) => ((interpretEach fuel level folder ns).run.run e).map fun r =>
        (r.1.map ((exampleName n, count) :: ·), r.2) := by
  rw [interpretEach]
  change (interpretFile fuel level (traceMode n) (program folder n).text (output folder n).text >>= fun count =>
    interpretEach fuel level folder ns >>= fun rest => pure ((exampleName n, count) :: rest)).run.run d = _
  rw [Job.run_bind]
  cases (interpretFile fuel level (traceMode n) (program folder n).text (output folder n).text).run.run d with
  | none => rfl
  | some first =>
    obtain ⟨r, e⟩ := first
    cases r with
    | error x => rfl
    | ok count =>
      dsimp only
      rw [Job.run_bind]
      cases (interpretEach fuel level folder ns).run.run e with
      | none => rfl
      | some more =>
        obtain ⟨r, f⟩ := more
        cases r <;> rfl

/-- Where the examples of a folder write. -/
def reached (level : Int) (folder : Path) (d : Disk) (l : Location) : Prop :=
  (∃ n, d.place? (output folder n).text = some l) ∨ Runner.traces level l

/-- No program is written by an example. -/
theorem not_reached (hf : folder.Clean) {n : Nat} {t : Location}
    (ht : d.place? (program folder n).text = some t) : ¬ reached level folder d t := by
  rintro (⟨k, hplace⟩ | htrace)
  · exact output_ne_program hf ht hplace
  · exact not_traces (getLast?_program hf ht) (by simp [head?_exampleName]) htrace

/-- What the trace holds that the given examples add to. The first of all examples drops what was there. -/
def Before (ns : List Nat) (d : Disk) (bytes : List UInt8) : Prop :=
  if 1 ∈ ns then bytes = [] else d.at? Runner.tracePlace = some (.file bytes)

theorem Before.kept {n : Nat} {ns : List Nat} {bytes : List UInt8} (h : Before (n :: ns) d bytes) (hone : 1 ∉ ns) :
    d.kept (traceMode n) Runner.tracePlace = bytes := by
  unfold Before at h
  by_cases hn : n = 1
  · rw [if_pos (by simp [hn])] at h
    rw [traceMode, if_pos hn, Disk.kept_truncate, h]
  · rw [if_neg (by simp [hone, Ne.symm hn])] at h
    simp only [traceMode, if_neg hn, Disk.kept, h]

/-- The examples have come to values and traces, which have been written one after the other. -/
structure Advanced (level : Int) (folder : Path) (ran : Nat → Value × String) (ns : List Nat) (d e : Disk) :
    Prop where
  keeps : d.Keeps (fun l => outputs folder d ns l ∨ Runner.traces level l) e
  read : ∀ n ∈ ns, e.read (output folder n).text = .ok (Text.encode (ran n).1.text)
  trace : 0 < level → ∀ bytes, Before ns d bytes →
    e.at? Runner.tracePlace = some (.file (bytes ++ ns.flatMap fun n => Text.encode (ran n).2))

variable {ran : Nat → Value × String}

theorem Advanced.nil : Advanced level folder ran [] d d where
  keeps := .refl _ d
  read := by simp
  trace _ bytes h := by simpa [Before] using h

theorem Advanced.cons (hf : folder.Clean) {n : Nat} {ns : List Nat} (hn : n ∉ ns) (hone : 1 ∉ ns) {d' : Disk}
    (hran : Ran level (traceMode n) (output folder n).text (ran n) d d') (h : Advanced level folder ran ns d' e) :
    Advanced level folder ran (n :: ns) d e := by
  have hplaces : ∀ path, d'.place? path = d.place? path := hran.keeps.place?_eq
  refine ⟨(hran.keeps.trans h.keeps).mono fun l hl => ?_, fun m hm => ?_, fun hl bytes hbefore => ?_⟩
  · rcases hl with (hl | hl) | ⟨k, hk, hl⟩ | hl
    · exact .inl ⟨n, List.mem_cons_self, hl⟩
    · exact .inr hl
    · exact .inl ⟨k, List.mem_cons_of_mem n hk, hplaces _ ▸ hl⟩
    · exact .inr hl
  · rcases List.mem_cons.1 hm with rfl | hm
    · exact h.keeps.read hran.read fun t ht => not_outputs hf hn ht
    · exact h.read m hm
  · have hfile := hran.trace hl
    rw [hbefore.kept hone] at hfile
    have hrest := h.trace hl _ (show Before ns d' _ by rw [Before, if_neg hone]; exact hfile)
    rw [hrest, List.append_assoc, List.flatMap_cons]

theorem Advanced.reaches {ns : List Nat} (h : Advanced level folder ran ns d e) : d.Keeps (reached level folder d) e :=
  h.keeps.mono fun _ hl => hl.imp_left fun ⟨n, _, hplace⟩ => ⟨n, hplace⟩

/-- An example that comes to no value ends the batch, with nothing changed but the trace. -/
theorem run_interpretEach_stop (fuel : Nat) (hf : folder.Clean) (h : d.Keeps (reached level folder d) e) (n : Nat)
    (ns : List Nat) :
    (planned fuel level folder d n = none → (interpretEach fuel level folder (n :: ns)).run.run e = none) ∧
    ∀ x, planned fuel level folder d n = some (.error x) → ∃ e', e.Keeps (Runner.traces level) e' ∧
      (interpretEach fuel level folder (n :: ns)).run.run e = some (.error x, e') := by
  have hrun := run_example fuel level n hf h (fun t ht => not_reached hf ht) (traceMode n)
  rw [run_interpretEach_cons]
  generalize (interpretFile fuel level (traceMode n) (program folder n).text (output folder n).text).run.run e = r
    at hrun ⊢
  refine ⟨fun hp => ?_, fun x hp => ?_⟩
  · rw [hp] at hrun
    cases hrun with
    | endless => rfl
  · rw [hp] at hrun
    cases hrun with
    | @failed _ e' keeps => exact ⟨e', keeps, rfl⟩

/-- The line that is shown of an example that has run. -/
def shown (ran : Nat → Value × String) (n : Nat) : String × Nat := (exampleName n, (ran n).1.text.length)

/-- Examples that come to values are run, and the others after them. -/
theorem exists_advanced (hf : folder.Clean) : ∀ {ns : List Nat} {e : Disk}, d.Keeps (reached level folder d) e →
    ns.Nodup → 1 ∉ ns.tail → (∀ n ∈ ns, planned fuel level folder d n = some (.ok (ran n))) →
    ∃ e', Advanced level folder ran ns e e' ∧ ∀ rest, (interpretEach fuel level folder (ns ++ rest)).run.run e =
      ((interpretEach fuel level folder rest).run.run e').map fun r => (r.1.map (ns.map (shown ran) ++ ·), r.2)
  | [], e, _, _, _, _ => by
    refine ⟨e, .nil, fun rest => ?_⟩
    rw [List.nil_append]
    cases (interpretEach fuel level folder rest).run.run e with
    | none => rfl
    | some r =>
      obtain ⟨r, e'⟩ := r
      cases r <;> rfl
  | n :: ns, e, h, hnodup, hone, hran => by
    obtain ⟨hn, hnodup⟩ := List.nodup_cons.1 hnodup
    -- earlier examples have written where no program stands, so that this one comes to the same as on `d`
    have hruns := run_example fuel level n hf h (fun t ht => not_reached hf ht) (traceMode n)
    obtain ⟨e', hwritten, hrun⟩ := hruns.exists_ran (hran n List.mem_cons_self)
    have hkeeps : d.Keeps (reached level folder d) e' := (h.trans hwritten.keeps).mono fun l hl => by
      rcases hl with hl | hl | hl
      · exact hl
      · exact .inl ⟨n, h.place?_eq _ ▸ hl⟩
      · exact .inr hl
    obtain ⟨e'', hadvanced, heach⟩ := exists_advanced hf hkeeps hnodup (fun hmem => hone (List.mem_of_mem_tail hmem))
      fun m hm => hran m (List.mem_cons_of_mem n hm)
    refine ⟨e'', hadvanced.cons hf hn hone hwritten, fun rest => ?_⟩
    rw [List.cons_append, run_interpretEach_cons, hrun]
    dsimp only
    rw [heach, Option.map_map]
    congr 1
    funext r
    obtain ⟨r, f⟩ := r
    cases r <;> rfl

/-! ## Batches -/

/-- The trace file is read at its place. -/
theorem read_of_file {bytes : List UInt8} (h : d.at? Runner.tracePlace = some (.file bytes)) :
    d.read Runner.traceFile = .ok bytes := by
  have hread := Command.read_traceFile d
  rwa [show d.at? [Runner.traceFile] = some (.file bytes) from h] at hread

def alone (fuel : Nat) (level : Int) (folder : Path) (d : Disk) (n : Nat) : Option (Except Failure Nat × Disk) :=
  (interpretFile fuel level .truncate (program folder n).text (output folder n).text).run.run d

theorem runs_alone (fuel : Nat) (level : Int) (hf : folder.Clean) (d : Disk) (n : Nat) :
    Runs level .truncate (output folder n).text d (planned fuel level folder d n) (alone fuel level folder d n) :=
  run_example fuel level n hf (.refl (fun _ => False) d) (fun _ _ => not_false) .truncate

/-- The examples up to some number, each of which succeeds alone, are run, and the others after them. -/
theorem exists_advanced_upTo (hf : folder.Clean) {m : Nat} {chars : Nat → Nat} {left : Nat → Disk}
    (h : ∀ j, 1 ≤ j → j ≤ m → alone fuel level folder d j = some (.ok (chars j), left j)) :
    ∃ ran e, (∀ j, 1 ≤ j → j ≤ m → chars j = (ran j).1.text.length ∧
        Ran level .truncate (output folder j).text (ran j) d (left j)) ∧
      Advanced level folder ran (List.range' 1 m) d e ∧
      ∀ rest, (interpretEach fuel level folder (List.range' 1 m ++ rest)).run.run d =
        ((interpretEach fuel level folder rest).run.run e).map fun r =>
          (r.1.map ((List.range' 1 m).map (shown ran) ++ ·), r.2) := by
  have hplanned : ∀ j, ∃ ran, 1 ≤ j → j ≤ m → planned fuel level folder d j = some (.ok ran) ∧
      chars j = ran.1.text.length ∧ Ran level .truncate (output folder j).text ran d (left j) := by
    intro j
    by_cases hj : 1 ≤ j ∧ j ≤ m
    · have hruns := runs_alone fuel level hf d j
      rw [h j hj.1 hj.2] at hruns
      generalize planned fuel level folder d j = p at hruns ⊢
      cases hruns with
      | @ran ran _ _ count written => exact ⟨ran, fun _ _ => ⟨rfl, count, written⟩⟩
    · exact ⟨(.missing, ""), fun h1 hm => absurd ⟨h1, hm⟩ hj⟩
  choose ran hran using hplanned
  have htail : 1 ∉ (List.range' 1 m).tail := by
    rw [List.tail_range', List.mem_range'_1]
    omega
  obtain ⟨e, hadvanced, heach⟩ := exists_advanced hf (.refl _ d) List.nodup_range' htail fun n hn => by
    obtain ⟨h1, hm⟩ := List.mem_range'_1.1 hn
    exact (hran n h1 (by omega)).1
  exact ⟨ran, e, fun j h1 hm => (hran j h1 hm).2, hadvanced, heach⟩

/-- All examples succeed. -/
theorem run_interpretEach_all (hf : folder.Clean) {count : Nat} {chars : Nat → Nat} {left : Nat → Disk}
    (h : ∀ k, 1 ≤ k → k ≤ count → alone fuel level folder d k = some (.ok (chars k), left k)) :
    ∃ e, (interpretEach fuel level folder (List.range' 1 count)).run.run d =
        some (.ok ((List.range' 1 count).map fun k => (exampleName k, chars k)), e) ∧
      (∀ k, 1 ≤ k → k ≤ count → ∃ bytes, (left k).read (output folder k).text = .ok bytes ∧
        e.read (output folder k).text = .ok bytes) ∧
      (0 < level → 0 < count → ∃ traces : Nat → List UInt8,
        (∀ k, 1 ≤ k → k ≤ count → (left k).read Runner.traceFile = .ok (traces k)) ∧
        e.read Runner.traceFile = .ok ((List.range' 1 count).flatMap traces)) := by
  obtain ⟨ran, e, hran, hadvanced, heach⟩ := exists_advanced_upTo hf h
  have hshown : (List.range' 1 count).map (shown ran) =
      (List.range' 1 count).map fun k => (exampleName k, chars k) := by
    refine List.map_congr_left fun k hk => ?_
    obtain ⟨h1, hk⟩ := List.mem_range'_1.1 hk
    rw [shown, (hran k h1 (by omega)).1]
  refine ⟨e, ?_, fun k h1 hk => ?_, fun hl hpos => ⟨fun k => Text.encode (ran k).2, fun k h1 hk => ?_, ?_⟩⟩
  · have hall := heach []
    rw [List.append_nil, hshown] at hall
    rw [hall]
    change some (Except.ok (_ ++ []), e) = _
    rw [List.append_nil]
  · exact ⟨_, (hran k h1 hk).2.read, hadvanced.read k (List.mem_range'_1.2 (by omega))⟩
  · have hfile := (hran k h1 hk).2.trace hl
    rw [Disk.kept_truncate, List.nil_append] at hfile
    exact read_of_file hfile
  · have hone : 1 ∈ List.range' 1 count := List.mem_range'_1.2 (by omega)
    have hfile := hadvanced.trace hl [] (by rw [Before, if_pos hone])
    exact read_of_file hfile

/-- The first example that does not succeed ends the batch. -/
theorem run_interpretEach_first (hf : folder.Clean) {count k : Nat} (hk : 1 ≤ k) (hcount : k ≤ count)
    {chars : Nat → Nat} {left : Nat → Disk}
    (h : ∀ j, 1 ≤ j → j < k → alone fuel level folder d j = some (.ok (chars j), left j)) :
    (∀ x f, alone fuel level folder d k = some (.error x, f) →
      ∃ e, (interpretEach fuel level folder (List.range' 1 count)).run.run d = some (.error x, e) ∧
        (∀ j, 1 ≤ j → j < k → ∃ bytes, (left j).read (output folder j).text = .ok bytes ∧
          e.read (output folder j).text = .ok bytes) ∧
        ∀ j, k ≤ j → e.place? (output folder j).text = d.place? (output folder j).text ∧
          ∀ l, d.place? (output folder j).text = some l → e.at? l = d.at? l) ∧
    (alone fuel level folder d k = none →
      (interpretEach fuel level folder (List.range' 1 count)).run.run d = none) := by
  obtain ⟨ran, e, hran, hadvanced, heach⟩ := exists_advanced_upTo hf (m := k - 1) fun j h1 hj => h j h1 (by omega)
  have hnumbers : List.range' 1 count = List.range' 1 (k - 1) ++ k :: List.range' (k + 1) (count - k) := by
    have hsplit : List.range' 1 (k - 1) ++ List.range' (1 + (k - 1)) (count - k + 1) = _ := List.range'_append_1
    rw [show 1 + (k - 1) = k by omega, show k - 1 + (count - k + 1) = count by omega, List.range'_succ] at hsplit
    exact hsplit.symm
  obtain ⟨hnone, hfailed⟩ := run_interpretEach_stop fuel hf hadvanced.reaches k (List.range' (k + 1) (count - k))
  have hruns := runs_alone fuel level hf d k
  rw [hnumbers, heach]
  refine ⟨fun x f hx => ?_, fun hx => ?_⟩
  · have hplanned : planned fuel level folder d k = some (.error x) := by
      rw [hx] at hruns
      generalize planned fuel level folder d k = p at hruns ⊢
      cases hruns with
      | failed keeps => rfl
    obtain ⟨e', hkeeps, hrun⟩ := hfailed x hplanned
    rw [hrun]
    refine ⟨e', rfl, fun j h1 hj => ?_, fun j hj => ?_⟩
    · have hread := hadvanced.read j (List.mem_range'_1.2 (by omega))
      refine ⟨_, (hran j h1 (by omega)).2.read, hkeeps.read hread fun t ht htrace => ?_⟩
      exact not_traces (getLast?_output hf ht) (by simp [head?_outputName]) htrace
    · have htotal := hadvanced.keeps.trans hkeeps
      refine ⟨htotal.place?_eq _, fun l hl => htotal.other fun hwritten => ?_⟩
      have hlater : j ∉ List.range' 1 (k - 1) := by
        rw [List.mem_range'_1]
        omega
      exact not_outputs hf hlater hl (hwritten.elim id .inr)
  · have hplanned : planned fuel level folder d k = none := by
      rw [hx] at hruns
      generalize planned fuel level folder d k = p at hruns ⊢
      cases hruns with
      | endless => rfl
    rw [hnone hplanned]
    rfl

end Examples

theorem run_interpretExamples (fuel : Nat) (level : Int) (folder : Octets) (count : Nat) (d : Disk) :
    (interpretExamples fuel level folder count).run.run d =
      (interpretEach fuel level (Path.ofText folder) (List.range' 1 count)).run.run d := by
  rw [interpretExamples, Int.toNat_natCast, List.range'_eq_map_range]
  simp only [Nat.add_comm 1]

/-- A batch of examples gives each of them what it is given alone, whatever the others do. If all succeed, so does the
batch, with the same numbers of characters and the same outputs, and the trace is made of their traces in order. If one
does not, the batch ends as the first such example does; the outputs in front of it are written, and no later one is
touched. -/
theorem interpretExamples_independent (fuel : Nat) (level : Int) (folder : Octets) (count : Nat) (d : Disk)
    (chars : Nat → Nat) (left : Nat → Disk) :
    let alone := Examples.alone fuel level (Path.ofText folder) d
    let output := fun k => (Examples.output (Path.ofText folder) k).text
    let batch := (interpretExamples fuel level folder count).run.run d
    ((∀ k, 1 ≤ k → k ≤ count → alone k = some (.ok (chars k), left k)) →
      ∃ e, batch = some (.ok ((List.range' 1 count).map fun k => (exampleName k, chars k)), e) ∧
        (∀ k, 1 ≤ k → k ≤ count →
          ∃ bytes, (left k).read (output k) = .ok bytes ∧ e.read (output k) = .ok bytes) ∧
        (0 < level → 0 < count → ∃ traces : Nat → List UInt8,
          (∀ k, 1 ≤ k → k ≤ count → (left k).read Runner.traceFile = .ok (traces k)) ∧
          e.read Runner.traceFile = .ok ((List.range' 1 count).flatMap traces))) ∧
    ∀ k, 1 ≤ k → k ≤ count → (∀ j, 1 ≤ j → j < k → alone j = some (.ok (chars j), left j)) →
      (∀ x f, alone k = some (.error x, f) → ∃ e, batch = some (.error x, e) ∧
        (∀ j, 1 ≤ j → j < k →
          ∃ bytes, (left j).read (output j) = .ok bytes ∧ e.read (output j) = .ok bytes) ∧
        ∀ j, k ≤ j → e.place? (output j) = d.place? (output j) ∧
          ∀ l, d.place? (output j) = some l → e.at? l = d.at? l) ∧
      (alone k = none → batch = none) := by
  intro alone output batch
  have hf := Path.clean_ofText folder
  have hbatch : batch = _ := run_interpretExamples fuel level folder count d
  rw [hbatch]
  exact ⟨Examples.run_interpretEach_all hf, fun k hk hcount => Examples.run_interpretEach_first hf hk hcount⟩

/-- Two examples that set `x`, and a third one that prints it and has no value alone. What the trace held is dropped,
and the output of the third is kept. -/
theorem interpretExamples_independent_third :
    let d : Disk := { entries := [(["e"], .folder), (["e", "example1.cmm"], .file (Text.encode "x = 12\nprint x")),
      (["e", "example2.cmm"], .file (Text.encode "x = 3\nprint x")),
      (["e", "example3.cmm"], .file (Text.encode "print x")), (["e", "output3.txt"], .file [48]),
      (["debug.txt"], .file [49])] }
    (∃ e f f' told told', Examples.alone 9 1 (Path.ofText "e") d 1 = some (.ok 2, f) ∧
      Examples.alone 9 1 (Path.ofText "e") d 2 = some (.ok 1, f') ∧
      (interpretExamples 9 1 "e" 2).run.run d = some (.ok [("example1.cmm", 2), ("example2.cmm", 1)], e) ∧
      f.read Runner.traceFile = .ok told ∧ f'.read Runner.traceFile = .ok told' ∧
      e.read Runner.traceFile = .ok (told ++ told')) ∧
    ∃ e, (interpretExamples 9 1 "e" 3).run.run d = some (.error (.noValue "e/example3.cmm"), e) ∧
      e.at? ["e", "output3.txt"] = some (.file [48]) := by
  intro d
  let chars : Nat → Nat := fun k => if k = 1 then 2 else 1
  let left : Nat → Disk := fun k => ((Examples.alone 9 1 (Path.ofText "e") d k).map Prod.snd).getD d
  have halone : ∀ k, 1 ≤ k → k ≤ 2 → Examples.alone 9 1 (Path.ofText "e") d k = some (.ok (chars k), left k) := by
    intro k h1 h2
    obtain rfl | rfl : k = 1 ∨ k = 2 := by omega
    · decide +kernel
    · decide +kernel
  have hthird : Examples.alone 9 1 (Path.ofText "e") d 3 = some (.error (.noValue "e/example3.cmm"), left 3) := by
    decide +kernel
  have hplace : d.place? (Examples.output (Path.ofText "e") 3).text = some (["e", "output3.txt"] : Location) := by
    decide +kernel
  obtain ⟨e, hrun, -, htrace⟩ := (interpretExamples_independent 9 1 "e" 2 d chars left).1 halone
  obtain ⟨e', hrun', -, hkept⟩ := ((interpretExamples_independent 9 1 "e" 3 d chars left).2 3 (by decide) (by decide)
    fun j h1 hj => halone j h1 (by omega)).1 _ _ hthird
  obtain ⟨traces, htraces, htold⟩ := htrace (by decide) (by decide)
  have hshown : (List.range' 1 2).map (fun k => (exampleName k, chars k)) =
      [("example1.cmm", 2), ("example2.cmm", 1)] := by decide +kernel
  rw [hshown] at hrun
  have hboth : (List.range' 1 2).flatMap traces = traces 1 ++ traces 2 := by simp [List.range'_succ]
  rw [hboth] at htold
  exact ⟨⟨e, left 1, left 2, traces 1, traces 2, halone 1 (by decide) (by decide), halone 2 (by decide) (by decide),
    hrun, htraces 1 (by decide) (by decide), htraces 2 (by decide) (by decide), htold⟩, e', hrun',
    ((hkept 3 (le_refl 3)).2 _ hplace).trans (by decide)⟩

end LineLang
