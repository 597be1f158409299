import Mathlib
import LineLang.Proofs.Footprint
import LineLang.Proofs.Range

/-!
# What is written is a decimal of 64 bits

* `Text.Decimal.IsDecimal k cs` : the characters are the decimal of an integer, which has no other one;
* `Value.bare?` : the integer in a value, at any depth of printing. The text of a value, whether it can be written and
  whether it is true are told by it;
* `comesTo` : what the program of a file comes to, a value that can be written or a failure;
* `Follows`, `run_interpretFile` : what interpreting the file leaves in each case;
* `interpretFile_decimal` : a file that is written holds the decimal of an integer in 64 bits.
-/

namespace LineLang

/-! ## Decimals -/

namespace Text.Decimal

/-- The characters are the digits of a number, without leading zeros. -/
structure Canonical (n : Nat) (ds : List Char) : Prop where
  digits : ∀ c ∈ ds, c ∈ "0123456789".toList
  lead : ∃ c cs, ds = c :: cs ∧ (c = '0' → cs = [])
  value : valueOf ds = n

/-- The characters are the decimal of an integer: digits, behind a minus sign if it is negative. -/
def IsDecimal (k : Int) (cs : List Char) : Prop :=
  ∃ ds, cs = (if k < 0 then '-' :: ds else ds) ∧ Canonical k.natAbs ds

theorem digit_digitValue : ∀ c ∈ "0123456789".toList, digitValue c < 10 ∧ digit (digitValue c) = c :=
  Text.forall_mem_of_all (by decide)

theorem canonical_digitsOf (n : Nat) : Canonical n (digitsOf n) := by
  obtain ⟨c, cs, hcs, hlead⟩ := digitsOf_lead n
  exact ⟨digitsOf_mem n, ⟨c, cs, hcs, fun hc => (hlead hc).2⟩, valueOf_digitsOf n⟩

/-- Digits without leading zeros are those of the number that they denote. -/
theorem Canonical.eq_digitsOf {n : Nat} {ds : List Char} (h : Canonical n ds) : ds = digitsOf n := by
  -- from the back, as `digitsOf` takes the digits off
  induction ds using List.reverseRecOn generalizing n with
  | nil =>
    obtain ⟨c, cs, hnil, -⟩ := h.lead
    cases hnil
  | append_singleton front c ih =>
    obtain ⟨hlt, hc⟩ := digit_digitValue c (h.digits c (by simp))
    have hvalue := h.value
    rw [valueOf_append] at hvalue
    obtain ⟨first, more, hfirst, hlead⟩ := h.lead
    cases front with
    | nil =>
      obtain rfl : digitValue c = n := by simpa [valueOf] using hvalue
      rw [digitsOf, if_pos hlt, hc, List.nil_append]
    | cons a front =>
      obtain ⟨rfl, rfl⟩ := List.cons.inj hfirst
      have ha : a ≠ '0' := fun ha => absurd (hlead ha) (by simp)
      have hfront : a :: front = digitsOf (valueOf (a :: front)) :=
        ih ⟨fun x hx => h.digits x (List.mem_append_left _ hx), ⟨a, front, rfl, fun h0 => absurd h0 ha⟩, rfl⟩
      have hpos : valueOf (a :: front) ≠ 0 := by
        intro h0
        rw [h0, digitsOf, if_pos (by decide)] at hfront
        exact ha (List.cons.inj hfront).1
      rw [digitsOf, if_neg (by omega), show n / 10 = valueOf (a :: front) by omega,
        show n % 10 = digitValue c by omega, hc, ← hfront]

/-- An integer has one decimal. -/
theorem isDecimal_iff {k : Int} {cs : List Char} : IsDecimal k cs ↔ cs = (ofInt k).toList := by
  rw [ofInt, String.toList_ofList]
  constructor
  · rintro ⟨ds, rfl, hds⟩
    rw [hds.eq_digitsOf]
  · rintro rfl
    exact ⟨digitsOf k.natAbs, rfl, canonical_digitsOf _⟩

/-- The minus sign and the number tell integers apart. -/
theorem ofInt_inj {a b : Int} (h : ofInt a = ofInt b) : a = b := by
  obtain ⟨ds, ha, hds⟩ := isDecimal_iff.2 (rfl : (ofInt a).toList = _)
  obtain ⟨ds', hb, hds'⟩ := isDecimal_iff.2 (rfl : (ofInt b).toList = _)
  have no_minus : ∀ {n ds}, Canonical n ds → '-' ∉ ds := fun h hmem => absurd (h.digits _ hmem) (by decide)
  have heq := ha.symm.trans ((congrArg String.toList h).trans hb)
  split at heq <;> split at heq
  · have hnum := hds.value
    rw [List.cons.inj heq |>.2, hds'.value] at hnum
    omega
  · exact absurd (heq ▸ List.mem_cons_self) (no_minus hds')
  · exact absurd (heq ▸ List.mem_cons_self) (no_minus hds)
  · have hnum := hds.value
    rw [heq, hds'.value] at hnum
    omega

/-- An integer of 64 bits has at most nineteen digits. -/
theorem length_ofInt {k : Int} (h : Word.InRange k) : 1 ≤ (ofInt k).length ∧ (ofInt k).length ≤ 20 := by
  obtain ⟨c, cs, hcs, -⟩ := digitsOf_lead k.natAbs
  have hpos : 1 ≤ (digitsOf k.natAbs).length := by
    rw [hcs]
    exact Nat.le_add_left 1 _
  have hle : (digitsOf k.natAbs).length ≤ 19 := by
    refine length_digitsOf_le (by decide) ?_
    unfold Word.InRange Word.least Word.greatest at h
    omega
  rw [← String.length_toList, ofInt, String.toList_ofList]
  split
  · rw [List.length_cons]
    omega
  · omega

end Text.Decimal

/-! ## Values without their wrapping -/

namespace Value

def bare? : Value → Option Int
  | .missing => none
  | .int n => some n
  | .printed v => v.bare?

theorem text_eq (v : Value) : v.text = (v.bare?.map Text.Decimal.ofInt).getD "nil" := by
  induction v with
  | missing => rfl
  | int n => rfl
  | printed v ih => exact ih

theorem hasOutput_eq (v : Value) : v.hasOutput = v.bare?.isSome := by
  induction v with
  | missing => rfl
  | int n => rfl
  | printed v ih => exact ih

theorem InRange.bare {v : Value} (h : v.InRange) {k : Int} (hk : v.bare? = some k) : Word.InRange k := by
  induction v with
  | missing => cases hk
  | int n => exact Option.some.inj hk ▸ h
  | printed v ih => exact ih h hk

theorem isTrue_eq (v : Value) : v.isTrue = decide (v.text = "1") := by
  cases v with
  | missing => decide
  | int n => rfl
  | printed v => rfl

/-- Only the text of the number one is that of a true value; the text of no value is another one. -/
theorem isTrue_iff_bare (v : Value) : v.isTrue = true ↔ v.bare? = some 1 := by
  rw [isTrue_eq, decide_eq_true_iff, text_eq]
  cases hv : v.bare? with
  | none => decide
  | some k =>
    have hone : Text.Decimal.ofInt 1 = "1" := by decide +kernel
    rw [Option.map_some, Option.getD_some, Option.some.injEq, ← hone]
    exact ⟨Text.Decimal.ofInt_inj, congrArg _⟩

end Value

/-! ## What a program file comes to -/

/-- The text of the program at a path, or why there is none. -/
def Job.sourceOf (path : Path) (d : Disk) : Except Failure String :=
  match d.read path.text with
  | .ok bytes =>
    match textOf bytes with
    | .ok cs => .ok (String.ofList cs)
    | .error e => .error (.encoding e)
  | .error .tooLong => .error (.disk ⟨.tooLong, path.text⟩)
  | .error _ => .error (.noProgram path.text)

theorem Job.run_source_eq (path : Path) (d : Disk) : (source path).run.run d = some (sourceOf path d, d) := by
  have hget : (get : Job Disk).run.run d = some (.ok d, d) := rfl
  have hpure : ∀ bytes, (pure bytes : Job (List UInt8)).run.run d = some (.ok bytes, d) := fun _ => rfl
  rw [source, run_bind, content, run_bind, hget, sourceOf]
  dsimp only
  cases d.read path.text with
  | ok bytes =>
    dsimp only
    rw [hpure]
    dsimp only
    cases textOf bytes <;> rfl
  | error o => cases o <;> rfl

theorem Job.sourceOf_eq_ok {path : Path} {d : Disk} {text : String} :
    sourceOf path d = .ok text ↔ d.HasText path.text text := by
  unfold sourceOf Disk.HasText
  constructor
  · intro h
    split at h
    · next bytes hread =>
      split at h
      · next cs hcs => exact ⟨bytes, cs, hread, hcs, (Except.ok.inj h).symm⟩
      · cases h
    · cases h
    · cases h
  · rintro ⟨bytes, cs, hread, hcs, rfl⟩
    rw [hread]
    dsimp only
    rw [hcs]

theorem Job.sourceOf_ne_noValue (path : Path) (d : Disk) (name : Octets) :
    sourceOf path d ≠ .error (.noValue name) := by
  unfold sourceOf
  intro h
  split at h
  · split at h <;> cases h
  · cases h
  · cases h

def comesTo (fuel : Nat) (level : Int) (src : Octets) (d : Disk) : Option (Except Failure (Value × String)) :=
  match Job.sourceOf (Path.ofText src) d with
  | .error x => some (.error x)
  | .ok text =>
    if 0 < level ∧ d.at? Runner.tracePlace = some .folder then
      some (.error (.disk ⟨.isFolder, Runner.traceFile⟩))
    else (run level fuel (Tolerant.parse text) .empty).map fun report =>
      match report.outcome with
      | .error x => .error (.stopped x)
      | .ok v => if v.hasOutput then .ok (v, report.trace) else .error (.noValue src)

/-- A trace has been written, if the level asks for one. -/
inductive Runner.Traced (level : Int) (mode : WriteMode) (text : String) (d : Disk) : Disk → Prop where
  | silent (h : level ≤ 0) : Traced level mode text d d
  | told {e : Disk} (h : 0 < level) (twin : Disk.Twin tracePlace d e)
      (file : e.at? tracePlace = some (.file (d.kept mode tracePlace ++ Text.encode text))) :
      Traced level mode text d e

namespace Runner

variable {level : Int} {mode : WriteMode} {text : String} {d e : Disk}

theorem Traced.keeps (h : Traced level mode text d e) : d.Keeps (traces level) e := by
  cases h with
  | silent h => exact .refl _ d
  | told h twin file => exact twin.keeps.mono fun l hl => ⟨h, hl⟩

/-- A trace takes no place away from other files, and makes none. -/
theorem Traced.locate (h : Traced level mode text d e) (path : Octets) :
    (∃ r, e.locate .truncate path = .ok r) ↔ ∃ r, d.locate .truncate path = .ok r := by
  cases h with
  | silent h => exact Iff.rfl
  | told h twin file =>
    have hopened := twin.locate .truncate path
    generalize d.locate .truncate path = r, e.locate .truncate path = r' at hopened ⊢
    cases hopened with
    | both l h => exact iff_of_true ⟨_, rfl⟩ ⟨_, rfl⟩
    | refused h => exact iff_of_false (by rintro ⟨r, hr⟩; cases hr) (by rintro ⟨r, hr⟩; cases hr)

/-- No folder stands in the place of the trace file, or no trace is asked for. -/
def Unhindered (level : Int) (d : Disk) : Prop := ¬ (0 < level ∧ d.at? tracePlace = some .folder)

/-- A new runner runs the program and writes its trace. -/
theorem exists_traced (mode : WriteMode) (fuel : Nat) (program : Node) (store : Store) (hd : Unhindered level d) :
    ∃ f : String → Disk, (∀ text, Traced level mode text d (f text)) ∧
      (runNew level mode fuel program store).run.run d = (LineLang.run level fuel program store).map fun report =>
        (.ok ⟨report.outcome, report.store, { level }⟩, f report.trace) := by
  by_cases hl : 0 < level
  · obtain ⟨e, hrun, hfile⟩ := run_runNew hl mode fuel program store fun hf => hd ⟨hl, hf⟩
    exact ⟨e.append tracePlace, fun text => .told hl (hfile text).1 (hfile text).2, hrun⟩
  · have hl := Int.not_lt.1 hl
    exact ⟨fun _ => d, fun _ => .silent hl, run_runNew_of_nonpos hl mode fuel program store d⟩

end Runner

theorem run_writeValue (src dst : Octets) (v : Value) (d : Disk) : (writeValue src dst v).run.run d =
    if v.hasOutput then
      match d.locate .truncate dst with
      | .ok (l, e) => some (.ok v.text.length, e.append l v.text)
      | .error o => some (.error (.disk ⟨o, dst⟩), d)
    else some (.error (.noValue src), d) := by
  unfold writeValue
  split
  · rw [Job.run_bind, Job.run_write]
    cases d.locate .truncate dst with
    | ok opened => rfl
    | error o => rfl
  · rfl

/-- How interpreting a program file ends, by what the program comes to: it does not, it fails with nothing changed but
the trace, or the trace is left and the value is written then. -/
inductive Follows (level : Int) (mode : WriteMode) (src dst : Octets) (d : Disk) :
    Option (Except Failure (Value × String)) → Option (Except Failure Nat × Disk) → Prop where
  | endless : Follows level mode src dst d none none
  | failed {x : Failure} {e : Disk} (keeps : d.Keeps (Runner.traces level) e) :
      Follows level mode src dst d (some (.error x)) (some (.error x, e))
  | valued {v : Value} {text : String} {e : Disk} {r : Option (Except Failure Nat × Disk)}
      (traced : Runner.Traced level mode text d e) (written : r = (writeValue src dst v).run.run e) :
      Follows level mode src dst d (some (.ok (v, text))) r

theorem run_interpretFile (fuel : Nat) (level : Int) (mode : WriteMode) (src dst : Octets) (d : Disk) :
    Follows level mode src dst d (comesTo fuel level src d) ((interpretFile fuel level mode src dst).run.run d) := by
  simp only [interpretFile, start_bind_value]
  rw [Job.run_bind, Job.run_source_eq]
  unfold comesTo
  cases Job.sourceOf (Path.ofText src) d with
  | error x => exact .failed (.refl _ d)
  | ok text =>
    dsimp only
    by_cases hd : 0 < level ∧ d.at? Runner.tracePlace = some .folder
    · rw [if_pos hd, writeRun, Job.run_bind, Runner.runNew, Job.run_bind, Runner.run_start_folder hd.1 mode hd.2]
      exact .failed (.refl _ d)
    · rw [if_neg hd]
      obtain ⟨f, htraced, hrun⟩ := Runner.exists_traced mode fuel (Tolerant.parse text) .empty hd
      rw [writeRun, Job.run_bind, hrun]
      cases run level fuel (Tolerant.parse text) .empty with
      | none => exact .endless
      | some report =>
        rw [Option.map_some, Option.map_some]
        dsimp only
        cases report.outcome with
        | error x => exact .failed (htraced _).keeps
        | ok v =>
          dsimp only
          by_cases hv : v.hasOutput = true
          · rw [if_pos hv]
            exact .valued (htraced _) rfl
          · rw [if_neg hv, run_writeValue, if_neg hv]
            exact .failed (htraced _).keeps

/-! ## Values of program files -/

/-- The program of the file runs to an end and has the value. -/
def HasValue (fuel : Nat) (level : Int) (src : Octets) (d : Disk) (v : Value) : Prop :=
  ∃ text report, d.HasText (Path.ofText src).text text ∧ run level fuel (Tolerant.parse text) .empty = some report ∧
    report.outcome = .ok v

/-- A run that gives a value has evaluated the program, on a store without names. -/
theorem run_inRange {level : Int} {fuel : Nat} {n : Node} (hn : n.named = true) {report : Report}
    (hr : run level fuel n .empty = some report) {v : Value} (hv : report.outcome = .ok v) : v.InRange := by
  unfold run at hr
  obtain ⟨⟨o, s⟩, hrun, heq⟩ := Option.bind_eq_some_iff.1 hr
  obtain rfl := Option.some.inj heq
  obtain rfl : o = .ok v := hv
  unfold execute at hrun
  split at hrun
  · cases hrun
  next text htext =>
  have hsafe : Eval.Safe Store.InRange (do
      Eval.tell level (.program text)
      let v ← eval level fuel n
      Eval.tell level (.result v)
      return v) Value.InRange :=
    .bind (.tell level _) fun _ _ => .bind (eval_safe level fuel n hn) fun v hv =>
      .bind (.tell level _) fun _ _ => .pure hv
  obtain ⟨w, hw, hrange, -⟩ := hsafe { store := .empty } (by simp [Store.InRange, Store.empty]) _ s hrun
  rwa [Except.ok.inj hw]

theorem HasValue.inRange {fuel : Nat} {level : Int} {src : Octets} {d : Disk} {v : Value}
    (h : HasValue fuel level src d v) : v.InRange := by
  obtain ⟨text, report, -, hrun, hv⟩ := h
  exact run_inRange (named_of_parsed (.inr ⟨text, rfl⟩)) hrun hv

section ComesTo

variable {fuel : Nat} {level : Int} {src : Octets} {d : Disk} {v : Value}

theorem comesTo_of_hasValue (hd : Runner.Unhindered level d) (h : HasValue fuel level src d v) :
    ∃ trace, comesTo fuel level src d =
      some (if v.hasOutput then .ok (v, trace) else .error (.noValue src)) := by
  obtain ⟨text, report, htext, hrun, hv⟩ := h
  refine ⟨report.trace, ?_⟩
  rw [comesTo, Job.sourceOf_eq_ok.2 htext]
  dsimp only
  rw [if_neg hd, hrun, Option.map_some, hv]

/-- A program fails before it has a value, or it has run to an end. -/
theorem comesTo_cases {r : Except Failure (Value × String)} (h : comesTo fuel level src d = some r) :
    (∃ x, r = .error x ∧ ∀ path, x ≠ .noValue path) ∨
      Runner.Unhindered level d ∧ ∃ v trace, HasValue fuel level src d v ∧
        r = if v.hasOutput then .ok (v, trace) else .error (.noValue src) := by
  unfold comesTo at h
  split at h
  · next x hx =>
    refine .inl ⟨x, (Option.some.inj h).symm, fun path hpath => ?_⟩
    exact Job.sourceOf_ne_noValue _ d path (hpath ▸ hx)
  next text htext =>
  split at h
  · exact .inl ⟨_, (Option.some.inj h).symm, by simp⟩
  next hd =>
  obtain ⟨report, hrun, rfl⟩ := Option.map_eq_some_iff.1 h
  cases houtcome : report.outcome with
  | error x => exact .inl ⟨_, rfl, by simp⟩
  | ok v => exact .inr ⟨hd, v, report.trace, ⟨text, report, Job.sourceOf_eq_ok.1 htext, hrun, houtcome⟩, rfl⟩

theorem hasValue_of_comesTo {trace : String} (h : comesTo fuel level src d = some (.ok (v, trace))) :
    Runner.Unhindered level d ∧ HasValue fuel level src d v ∧ v.hasOutput = true := by
  rcases comesTo_cases h with ⟨x, hx, -⟩ | ⟨hd, w, trace', hvalue, hr⟩
  · cases hx
  · split at hr
    · next hw =>
      obtain ⟨rfl, -⟩ := Prod.mk.inj (Except.ok.inj hr)
      exact ⟨hd, hvalue, hw⟩
    · cases hr

theorem valueless_of_comesTo {path : Octets} (h : comesTo fuel level src d = some (.error (.noValue path))) :
    path = src ∧ Runner.Unhindered level d ∧ ∃ v, HasValue fuel level src d v ∧ v.hasOutput = false := by
  rcases comesTo_cases h with ⟨x, hx, hother⟩ | ⟨hd, v, trace, hvalue, hr⟩
  · exact absurd (Except.error.inj hx).symm (hother path)
  · split at hr
    · cases hr
    · next hv =>
      exact ⟨Failure.noValue.inj (Except.error.inj hr), hd, v, hvalue, Bool.eq_false_iff.2 hv⟩

end ComesTo

section InterpretFile

variable {fuel : Nat} {level : Int} {mode : WriteMode} {src dst : Octets} {d e : Disk}

/-- What there is to write is written to a file that can be opened. -/
theorem interpretFile_ok {n : Nat} (h : (interpretFile fuel level mode src dst).run.run d = some (.ok n, e)) :
    ∃ v trace, comesTo fuel level src d = some (.ok (v, trace)) ∧ (∃ r, d.locate .truncate dst = .ok r) ∧
      n = v.text.length ∧ e.read dst = .ok (Text.encode v.text) := by
  have hrun := run_interpretFile fuel level mode src dst d
  rw [h] at hrun
  generalize hcomes : comesTo fuel level src d = c at hrun
  cases hrun with
  | @valued v trace d' _ traced written =>
    rw [run_writeValue, if_pos (hasValue_of_comesTo hcomes).2.2] at written
    split at written
    · next l e' hlocate =>
      obtain ⟨hn, rfl⟩ := Prod.mk.inj (Option.some.inj written)
      exact ⟨v, trace, rfl, (traced.locate dst).1 ⟨_, hlocate⟩, Except.ok.inj hn,
        (Disk.locate_spec hlocate v.text).2.2⟩
    · cases written

theorem exists_interpretFile_ok (mode : WriteMode) {v : Value} {trace : String}
    (h : comesTo fuel level src d = some (.ok (v, trace))) (hdst : ∃ r, d.locate .truncate dst = .ok r) :
    ∃ n e, (interpretFile fuel level mode src dst).run.run d = some (.ok n, e) := by
  have hrun := run_interpretFile fuel level mode src dst d
  rw [h] at hrun
  generalize (interpretFile fuel level mode src dst).run.run d = r at hrun ⊢
  cases hrun with
  | valued traced written =>
    obtain ⟨⟨l, e⟩, hlocate⟩ := (traced.locate dst).2 hdst
    rw [run_writeValue, if_pos (hasValue_of_comesTo h).2.2, hlocate] at written
    exact ⟨_, _, written⟩

/-- There is nothing to write to a file if the program comes to no value. -/
theorem interpretFile_noValue_iff {path : Octets} :
    (∃ e, (interpretFile fuel level mode src dst).run.run d = some (.error (.noValue path), e)) ↔
      comesTo fuel level src d = some (.error (.noValue path)) := by
  have hrun := run_interpretFile fuel level mode src dst d
  constructor
  · rintro ⟨e, h⟩
    rw [h] at hrun
    generalize hcomes : comesTo fuel level src d = c at hrun
    cases hrun with
    | failed keeps => rfl
    | valued traced written =>
      rw [run_writeValue, if_pos (hasValue_of_comesTo hcomes).2.2] at written
      split at written <;> cases written
  · intro h
    rw [h] at hrun
    generalize (interpretFile fuel level mode src dst).run.run d = r at hrun ⊢
    cases hrun with
    | @failed _ e keeps => exact ⟨e, rfl⟩

end InterpretFile

/-- A file that is written holds the decimal of an integer in 64 bits, the value of the program without its wrapping,
and nothing else. It is written whenever there is such a value and the file and that of the trace can be opened, and
the program is reported to have no value whenever there is none. A value is true if the integer in it is one. -/
theorem interpretFile_decimal (fuel : Nat) (level : Int) (mode : WriteMode) (src dst : Octets) (d : Disk) :
    (∀ n e, (interpretFile fuel level mode src dst).run.run d = some (.ok n, e) →
      ∃ v k cs, HasValue fuel level src d v ∧ v.bare? = some k ∧ Word.InRange k ∧
        (∀ cs', Text.Decimal.IsDecimal k cs' ↔ cs' = cs) ∧ e.read dst = .ok (Text.encode (String.ofList cs)) ∧
        cs.length = n ∧ 1 ≤ n ∧ n ≤ 20) ∧
    ((∃ n e, (interpretFile fuel level mode src dst).run.run d = some (.ok n, e)) ↔
      Runner.Unhindered level d ∧ (∃ r, d.locate .truncate dst = .ok r) ∧
        ∃ v k, HasValue fuel level src d v ∧ v.bare? = some k) ∧
    (∀ path, (∃ e, (interpretFile fuel level mode src dst).run.run d = some (.error (.noValue path), e)) ↔
      path = src ∧ Runner.Unhindered level d ∧ ∃ v, HasValue fuel level src d v ∧ v.bare? = none) ∧
    ∀ v : Value, v.isTrue = true ↔ v.bare? = some 1 := by
  refine ⟨fun n e h => ?_, ⟨?_, ?_⟩, fun path => ?_, Value.isTrue_iff_bare⟩
  · obtain ⟨v, trace, hcomes, -, rfl, hread⟩ := interpretFile_ok h
    obtain ⟨-, hvalue, hout⟩ := hasValue_of_comesTo hcomes
    rw [Value.hasOutput_eq] at hout
    obtain ⟨k, hk⟩ := Option.isSome_iff_exists.1 hout
    have hrange := hvalue.inRange.bare hk
    have htext : v.text = Text.Decimal.ofInt k := by rw [Value.text_eq, hk, Option.map_some, Option.getD_some]
    refine ⟨v, k, v.text.toList, hvalue, hk, hrange, fun cs' => ?_, ?_, String.length_toList, ?_⟩
    · rw [Text.Decimal.isDecimal_iff, htext]
    · rwa [String.ofList_toList]
    · rw [htext]
      exact Text.Decimal.length_ofInt hrange
  · rintro ⟨n, e, h⟩
    obtain ⟨v, trace, hcomes, hdst, -⟩ := interpretFile_ok h
    obtain ⟨hd, hvalue, hout⟩ := hasValue_of_comesTo hcomes
    rw [Value.hasOutput_eq] at hout
    obtain ⟨k, hk⟩ := Option.isSome_iff_exists.1 hout
    exact ⟨hd, hdst, v, k, hvalue, hk⟩
  · rintro ⟨hd, hdst, v, k, hvalue, hk⟩
    obtain ⟨trace, hcomes⟩ := comesTo_of_hasValue hd hvalue
    rw [Value.hasOutput_eq, hk] at hcomes
    exact exists_interpretFile_ok mode hcomes hdst
  · rw [interpretFile_noValue_iff]
    constructor
    · intro hcomes
      obtain ⟨rfl, hd, v, hvalue, hout⟩ := valueless_of_comesTo hcomes
      rw [Value.hasOutput_eq, Option.isSome_eq_false_iff, Option.isNone_iff_eq_none] at hout
      exact ⟨rfl, hd, v, hvalue, hout⟩
    · rintro ⟨rfl, hd, v, hvalue, hk⟩
      obtain ⟨trace, hcomes⟩ := comesTo_of_hasValue hd hvalue
      rw [Value.hasOutput_eq, hk] at hcomes
      exact hcomes

/-- The least number, printed inside of what is printed, and a program that prints a name without a value. -/
theorem interpretFile_decimal_least :
    let d : Disk := { entries := [(["p.cmm"], .file (Text.encode
      "print if (1) \x7b\nprint 0 - 9223372036854775807 - 1\n\x7d")), (["q.cmm"], .file (Text.encode "print x"))] }
    (∃ e v k cs, (interpretFile 40 1 .truncate "p.cmm" "out.txt").run.run d = some (.ok 20, e) ∧
      HasValue 40 1 "p.cmm" d v ∧ v.bare? = some k ∧ Word.InRange k ∧
      (∀ cs', Text.Decimal.IsDecimal k cs' ↔ cs' = cs) ∧ e.read "out.txt" = .ok (Text.encode (String.ofList cs)) ∧
      cs.length = 20) ∧
    ∃ v, HasValue 40 1 "q.cmm" d v ∧ v.bare? = none := by
  intro d
  have hp : ((interpretFile 40 1 .truncate "p.cmm" "out.txt").run.run d).map Prod.fst = some (.ok 20) := by
    decide +kernel
  have hq : ((interpretFile 40 1 .truncate "q.cmm" "out.txt").run.run d).map Prod.fst =
      some (.error (.noValue "q.cmm")) := by decide +kernel
  obtain ⟨⟨r, e⟩, hrun, rfl⟩ := Option.map_eq_some_iff.1 hp
  obtain ⟨⟨r', e'⟩, hrun', rfl⟩ := Option.map_eq_some_iff.1 hq
  obtain ⟨v, k, cs, hvalue, hk, hrange, hcs, hread, hlen, -⟩ :=
    (interpretFile_decimal 40 1 .truncate "p.cmm" "out.txt" d).1 20 e hrun
  refine ⟨⟨e, v, k, cs, hrun, hvalue, hk, hrange, hcs, hread, hlen⟩, ?_⟩
  exact (((interpretFile_decimal 40 1 .truncate "q.cmm" "out.txt" d).2.2.1 "q.cmm").1 ⟨e', hrun'⟩).2.2

end LineLang
