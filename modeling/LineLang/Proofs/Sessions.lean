import LineLang.Proofs.TraceLevels
import LineLang.Session

/-!
# The messages of a session

* `Happening` : what happens in a session as far as its messages are concerned;
* `messages`, `fileMessages` : which messages are for the trace file and which are printed, and what the file holds,
  read off from everything that has happened;
* `Runner.Tracks past r d` : the runner and the disk are as they have to be after `past`;
* `Session.step_goes` : what one request does;
* `Session.messages_written_once` : what any number of requests do.
-/

namespace LineLang

inductive Happening where
  /-- A runner is made, with its trace level and the mode in which it opens the trace file. -/
  | made (level : Int) (mode : WriteMode)
  /-- A message is told, in a run or outside. -/
  | told (inRun : Bool) (message : String)
  | ended
  deriving DecidableEq, Repr

namespace Happening

/-- Whether the trace file is opened by a new runner. -/
def opens : Happening → Bool
  | .made level _ => 0 < level
  | _ => false

/-- Whether the trace file is opened and emptied. -/
def empties : Happening → Bool
  | .made level .truncate => 0 < level
  | _ => false

/-- The trace level of the runner in use, `level` at the beginning. -/
def levelAfter (level : Int) : List Happening → Int
  | [] => level
  | .made level' _ :: rest => levelAfter level' rest
  | _ :: rest => levelAfter level rest

/-- Whether the runner in use has ended a run, `ended` at the beginning. -/
def endedAfter (ended : Bool) : List Happening → Bool
  | [] => ended
  | .made .. :: rest => endedAfter false rest
  | .told .. :: rest => endedAfter ended rest
  | .ended :: rest => endedAfter true rest

/-- The messages that go to the trace file, or else those that are printed. A message goes to the file in a run, and as
long as the runner in use has not ended one. -/
def messages (toFile ended : Bool) : List Happening → List String
  | [] => []
  | .made .. :: rest => messages toFile false rest
  | .told inRun m :: rest =>
    if (inRun || !ended) = toFile then m :: messages toFile ended rest else messages toFile ended rest
  | .ended :: rest => messages toFile true rest

/-- What has happened since the last happening of some sort. -/
def sinceLast (p : Happening → Bool) : List Happening → Option (List Happening)
  | [] => none
  | x :: rest =>
    match sinceLast p rest with
    | some back => some back
    | none => if p x then some rest else none

/-- What has happened since the first happening of some sort. -/
def sinceFirst (p : Happening → Bool) : List Happening → Option (List Happening)
  | [] => none
  | x :: rest => if p x then some rest else sinceFirst p rest

/-- What has happened since the trace file was last emptied, or since it is there if it never was. -/
def sinceOpened (past : List Happening) : Option (List Happening) :=
  (sinceLast empties past).or (sinceFirst opens past)

/-- The messages in the trace file: those that went there since then. -/
def fileMessages (past : List Happening) : Option (List String) := (sinceOpened past).map (messages true false)

/-! ## Histories in parts -/

theorem messages_append (toFile : Bool) (a b : List Happening) : ∀ ended : Bool,
    messages toFile ended (a ++ b) = messages toFile ended a ++ messages toFile (endedAfter ended a) b := by
  induction a with
  | nil => exact fun _ => rfl
  | cons x a ih =>
    intro ended
    cases x with
    | made level mode => exact ih false
    | told inRun m =>
      simp only [List.cons_append, messages, endedAfter, ih]
      split <;> rfl
    | ended => exact ih true

theorem endedAfter_append (a b : List Happening) : ∀ ended : Bool,
    endedAfter ended (a ++ b) = endedAfter (endedAfter ended a) b := by
  induction a with
  | nil => exact fun _ => rfl
  | cons x a ih =>
    intro ended
    cases x with
    | made level mode => exact ih false
    | told inRun m => exact ih ended
    | ended => exact ih true

theorem levelAfter_append (a b : List Happening) : ∀ level : Int,
    levelAfter level (a ++ b) = levelAfter (levelAfter level a) b := by
  induction a with
  | nil => exact fun _ => rfl
  | cons x a ih =>
    intro level
    cases x with
    | made level' mode => exact ih level'
    | told inRun m => exact ih level
    | ended => exact ih level

theorem sinceLast_append {p : Happening → Bool} {b : List Happening} (hb : ∀ x ∈ b, p x = false) (a : List Happening) :
    sinceLast p (a ++ b) = (sinceLast p a).map (· ++ b) := by
  induction a with
  | nil =>
    induction b with
    | nil => rfl
    | cons x b ih =>
      obtain ⟨hx, hb⟩ := List.forall_mem_cons.1 hb
      have hrest : sinceLast p b = none := ih hb
      simp [sinceLast, hrest, hx]
  | cons x a ih =>
    simp only [List.cons_append, sinceLast, ih]
    cases sinceLast p a with
    | some back => rfl
    | none => cases p x <;> rfl

theorem sinceLast_concat {p : Happening → Bool} {x : Happening} (hx : p x = true) (a : List Happening) :
    sinceLast p (a ++ [x]) = some [] := by
  induction a with
  | nil => simp [sinceLast, hx]
  | cons y a ih => simp only [List.cons_append, sinceLast, ih]

theorem sinceFirst_append (p : Happening → Bool) (a b : List Happening) :
    sinceFirst p (a ++ b) = ((sinceFirst p a).map (· ++ b)).or (sinceFirst p b) := by
  induction a with
  | nil => rfl
  | cons x a ih =>
    simp only [List.cons_append, sinceFirst, ih]
    cases p x <;> rfl

theorem sinceFirst_eq_none {p : Happening → Bool} {b : List Happening} (hb : ∀ x ∈ b, p x = false) :
    sinceFirst p b = none := by
  induction b with
  | nil => rfl
  | cons x b ih =>
    obtain ⟨hx, hb⟩ := List.forall_mem_cons.1 hb
    simp [sinceFirst, hx, ih hb]

/-- Whether the runner in use has ended a run does not depend on what came before it was made. -/
theorem endedAfter_of_opens {x : Happening} (hx : x.opens = true) (front back : List Happening) (ended : Bool) :
    endedAfter ended (front ++ x :: back) = endedAfter false back := by
  rw [endedAfter_append]
  cases x with
  | made level mode => rfl
  | told inRun m => cases hx
  | ended => cases hx

theorem opens_of_empties {x : Happening} (h : x.empties = true) : x.opens = true := by
  cases x with
  | made level mode =>
    cases mode with
    | truncate => exact h
    | append => cases h
  | told inRun m => cases h
  | ended => cases h

theorem sinceLast_split {p : Happening → Bool} {past back : List Happening} (h : sinceLast p past = some back) :
    ∃ front x, past = front ++ x :: back ∧ p x = true := by
  induction past with
  | nil => cases h
  | cons x past ih =>
    rw [sinceLast] at h
    cases hrest : sinceLast p past with
    | some back' =>
      rw [hrest] at h
      obtain ⟨front, y, rfl, hy⟩ := ih (hrest.trans h)
      exact ⟨x :: front, y, rfl, hy⟩
    | none =>
      rw [hrest] at h
      cases hx : p x with
      | false => simp [hx] at h
      | true =>
        simp only [hx, if_true, Option.some.injEq] at h
        exact ⟨[], x, by rw [h]; rfl, hx⟩

theorem sinceFirst_split {p : Happening → Bool} {past back : List Happening} (h : sinceFirst p past = some back) :
    ∃ front x, past = front ++ x :: back ∧ p x = true := by
  induction past with
  | nil => cases h
  | cons x past ih =>
    rw [sinceFirst] at h
    cases hx : p x with
    | false =>
      simp only [hx, Bool.false_eq_true, if_false] at h
      obtain ⟨front, y, rfl, hy⟩ := ih h
      exact ⟨x :: front, y, rfl, hy⟩
    | true =>
      simp only [hx, if_true, Option.some.injEq] at h
      exact ⟨[], x, by rw [h]; rfl, hx⟩

theorem sinceOpened_split {past back : List Happening} (h : sinceOpened past = some back) :
    ∃ front x, past = front ++ x :: back ∧ x.opens = true := by
  rw [sinceOpened] at h
  cases hlast : sinceLast empties past with
  | none =>
    rw [hlast] at h
    exact sinceFirst_split h
  | some back' =>
    rw [hlast] at h
    obtain ⟨front, x, hpast, hx⟩ := sinceLast_split (hlast.trans h)
    exact ⟨front, x, hpast, opens_of_empties hx⟩

theorem sinceOpened_append {past new : List Happening} (h : ∀ x ∈ new, x.empties = false)
    (hopen : (sinceOpened past).isSome = true ∨ ∀ x ∈ new, x.opens = false) :
    sinceOpened (past ++ new) = (sinceOpened past).map (· ++ new) := by
  unfold sinceOpened at *
  rw [sinceLast_append h, sinceFirst_append]
  cases hlast : sinceLast empties past with
  | some back => rfl
  | none =>
    cases hfirst : sinceFirst opens past with
    | some back => rfl
    | none =>
      rcases hopen with hopen | hopen
      · simp [hlast, hfirst] at hopen
      · simp [sinceFirst_eq_none hopen]

/-- As long as the trace file is not opened anew, it gets the messages for it. -/
theorem fileMessages_append {past new : List Happening} (h : ∀ x ∈ new, x.opens = false) :
    fileMessages (past ++ new) = (fileMessages past).map (· ++ messages true (endedAfter false past) new) := by
  have hempties : ∀ x ∈ new, x.empties = false := by
    intro x hx
    have := h x hx
    cases hx' : x.empties with
    | false => rfl
    | true => rw [opens_of_empties hx'] at this; cases this
  rw [fileMessages, fileMessages, sinceOpened_append hempties (.inr h)]
  cases hback : sinceOpened past with
  | none => rfl
  | some back =>
    obtain ⟨front, x, rfl, hx⟩ := sinceOpened_split hback
    rw [endedAfter_of_opens hx]
    exact congrArg some (messages_append true back new false)

theorem fileMessages_truncate {level : Int} (h : 0 < level) (past : List Happening) :
    fileMessages (past ++ [.made level .truncate]) = some [] := by
  rw [fileMessages, sinceOpened, sinceLast_concat (by simpa [empties] using h)]
  rfl

theorem fileMessages_reopen {level : Int} (h : 0 < level) (past : List Happening) :
    fileMessages (past ++ [.made level .append]) = some ((fileMessages past).getD []) := by
  have hempties : ∀ x ∈ [made level .append], x.empties = false := by simp [empties]
  cases hback : sinceOpened past with
  | some back =>
    rw [fileMessages, sinceOpened_append hempties (.inl (by rw [hback]; rfl)), fileMessages, hback]
    simp [messages_append, messages]
  | none =>
    obtain ⟨hlast, hfirst⟩ := Option.or_eq_none_iff.1 hback
    rw [fileMessages, sinceOpened, sinceLast_append hempties, sinceFirst_append, hlast, hfirst, fileMessages, hback]
    simp [sinceFirst, opens, h, messages]

end Happening

/-- Messages as lines. -/
def lines (ms : List String) : String := String.join (ms.map (· ++ "\n"))

theorem lines_append (ms ms' : List String) : lines (ms ++ ms') = lines ms ++ lines ms' := by
  rw [lines, List.map_append, String.join_append]
  rfl

theorem encode_lines_append (ms ms' : List String) :
    Text.encode (lines (ms ++ ms')) = Text.encode (lines ms) ++ Text.encode (lines ms') := by
  rw [lines_append, Text.encode, String.toList_append, List.flatMap_append]
  rfl

theorem trace_eq_lines (report : Report) : report.trace = lines (report.events.map Event.message) := by
  rw [Report.trace, lines, List.map_map]
  rfl

namespace Happening

variable (inRun : Bool) (ms : List String)

theorem endedAfter_told (ended : Bool) : endedAfter ended (ms.map (told inRun)) = ended := by
  induction ms with
  | nil => rfl
  | cons m ms ih => exact ih

theorem levelAfter_told (level : Int) : levelAfter level (ms.map (told inRun)) = level := by
  induction ms with
  | nil => rfl
  | cons m ms ih => exact ih

theorem messages_told (toFile ended : Bool) :
    messages toFile ended (ms.map (told inRun)) = if (inRun || !ended) = toFile then ms else [] := by
  induction ms with
  | nil => simp [messages]
  | cons m ms ih =>
    rw [List.map_cons, messages, ih]
    split <;> rfl

theorem opens_told : ∀ x ∈ ms.map (told inRun), x.opens = false := by
  intro x hx
  obtain ⟨m, -, rfl⟩ := List.mem_map.1 hx
  rfl

/-- What happens in a run that tells the given events. -/
def ofRun (events : List Event) : List Happening := (events.map Event.message).map (told true) ++ [.ended]

theorem endedAfter_ofRun (events : List Event) (past : List Happening) :
    endedAfter false (past ++ ofRun events) = true := by
  rw [ofRun, endedAfter_append, endedAfter_append]
  rfl

theorem levelAfter_ofRun (events : List Event) (level : Int) : levelAfter level (ofRun events) = level := by
  rw [ofRun, levelAfter_append, levelAfter_told]
  rfl

theorem messages_ofRun (events : List Event) (toFile ended : Bool) :
    messages toFile ended (ofRun events) = if toFile then events.map Event.message else [] := by
  rw [ofRun, messages_append, messages_told]
  cases toFile <;> simp [messages]

theorem opens_ofRun (events : List Event) : ∀ x ∈ ofRun events, x.opens = false := by
  intro x hx
  rcases List.mem_append.1 hx with hx | hx
  · exact opens_told true _ x hx
  · rw [List.mem_singleton.1 hx]
    rfl

end Happening

/-! ## Runners -/

namespace Runner

open Happening

/-- The trace file holds what it has to hold after `past`. -/
def Holds (past : List Happening) (d : Disk) : Prop :=
  d.at? tracePlace = (fileMessages past).map fun ms => .file (Text.encode (lines ms))

structure Tracks (past : List Happening) (r : Runner) (d : Disk) : Prop where
  level : r.level = levelAfter 0 past
  handle : r.trace = if 0 < r.level ∧ endedAfter false past = false then some tracePlace else none
  file : Holds past d
  there : 0 < r.level → (fileMessages past).isSome = true

theorem Holds.not_folder {past : List Happening} {d : Disk} (h : Holds past d) : d.at? tracePlace ≠ some .folder := by
  rw [h]
  cases fileMessages past <;> simp

/-- What is kept of the trace file when a new runner opens it. -/
theorem Holds.kept {past : List Happening} {d : Disk} (h : Holds past d) {level : Int} (hpos : 0 < level)
    (mode : WriteMode) : ∃ ms, fileMessages (past ++ [.made level mode]) = some ms ∧
      d.kept mode tracePlace = Text.encode (lines ms) := by
  cases mode with
  | truncate => exact ⟨[], fileMessages_truncate hpos past, Disk.kept_truncate d tracePlace⟩
  | append =>
    refine ⟨_, fileMessages_reopen hpos past, ?_⟩
    unfold Disk.kept
    rw [h]
    cases fileMessages past <;> rfl

/-- A new runner, in either mode. -/
theorem Holds.start {past : List Happening} {d : Disk} (h : Holds past d) (level : Int) (mode : WriteMode) :
    ∃ r e, (start level mode).run.run d = some (.ok r, e) ∧ Tracks (past ++ [.made level mode]) r e := by
  have hlevel : levelAfter 0 (past ++ [.made level mode]) = level := by rw [levelAfter_append]; rfl
  have hended : endedAfter false (past ++ [.made level mode]) = false := by rw [endedAfter_append]; rfl
  by_cases hpos : 0 < level
  · obtain ⟨e, hready, -, hfile⟩ := Disk.ready_kept mode h.not_folder
    obtain ⟨ms, hms, hkept⟩ := h.kept hpos mode
    refine ⟨_, e, run_start hpos hready, hlevel.symm, ?_, ?_, fun _ => by rw [hms]; rfl⟩
    · simp [hpos, hended]
    · rw [Holds, hms, hfile, hkept]
      rfl
  · refine ⟨_, d, run_start_of_nonpos (Int.not_lt.1 hpos) mode d, hlevel.symm, ?_, ?_, fun h => absurd h hpos⟩
    · simp [hpos]
    · rw [Holds, fileMessages_append (by simpa [opens] using hpos), h]
      simp [messages]

namespace Tracks

variable {past : List Happening} {r : Runner} {d : Disk}

theorem exists_file (h : Tracks past r d) (hpos : 0 < r.level) : ∃ ms, fileMessages past = some ms ∧
    d.at? tracePlace = some (.file (Text.encode (lines ms))) := by
  obtain ⟨ms, hms⟩ := Option.isSome_iff_exists.1 (h.there hpos)
  refine ⟨ms, hms, ?_⟩
  rw [h.file, hms]
  rfl

/-- Messages for the trace file are written behind its end. -/
theorem written (h : Tracks past r d) (hpos : 0 < r.level) {new : List Happening} (hnew : ∀ x ∈ new, x.opens = false)
    {ms : List String} (hms : messages true (endedAfter false past) new = ms) :
    Holds (past ++ new) (d.append tracePlace (lines ms)) ∧ (fileMessages (past ++ new)).isSome = true := by
  obtain ⟨old, hold, hfile⟩ := h.exists_file hpos
  have hheld : fileMessages (past ++ new) = some (old ++ ms) := by
    rw [fileMessages_append hnew, hold, hms]
    rfl
  rw [Holds, hheld, Option.map_some, encode_lines_append]
  exact ⟨(Disk.append_file hfile (lines ms)).2, rfl⟩

/-- Nothing is written where no message is for the trace file. -/
theorem unwritten (h : Tracks past r d) {new : List Happening} (hnew : ∀ x ∈ new, x.opens = false)
    (hms : messages true (endedAfter false past) new = []) :
    Holds (past ++ new) d ∧ (0 < r.level → (fileMessages (past ++ new)).isSome = true) := by
  have hheld : fileMessages (past ++ new) = fileMessages past := by
    rw [fileMessages_append hnew, hms]
    simp
  rw [Holds, hheld]
  exact ⟨h.file, h.there⟩

/-- Messages outside a run. -/
theorem emit (h : Tracks past r d) (ms : List String) (hms : 0 < r.level ∨ ms = []) :
    ∃ printed e, (r.emit (lines ms)).run.run d = some (.ok printed, e) ∧ Tracks (past ++ ms.map (told false)) r e ∧
      printed = lines (messages false (endedAfter false past) (ms.map (told false))) := by
  have hlevel : r.level = levelAfter 0 (past ++ ms.map (told false)) := by
    rw [levelAfter_append, levelAfter_told, h.level]
  have hended : endedAfter false (past ++ ms.map (told false)) = endedAfter false past := by
    rw [endedAfter_append, endedAfter_told]
  have hhandle := h.handle
  rw [← hended] at hhandle
  unfold Runner.emit
  by_cases hopen : 0 < r.level ∧ endedAfter false past = false
  · have htrace : r.trace = some tracePlace := by rw [h.handle, if_pos hopen]
    have htofile : messages true (endedAfter false past) (ms.map (told false)) = ms := by
      rw [messages_told, hopen.2]
      rfl
    obtain ⟨hfile, hthere⟩ := h.written hopen.1 (opens_told false ms) htofile
    rw [htrace]
    refine ⟨"", _, rfl, ⟨hlevel, hhandle, hfile, fun _ => hthere⟩, ?_⟩
    rw [messages_told, hopen.2]
    rfl
  · have htrace : r.trace = none := by rw [h.handle, if_neg hopen]
    have hprinted : messages false (endedAfter false past) (ms.map (told false)) = ms ∧
        messages true (endedAfter false past) (ms.map (told false)) = [] := by
      rcases hms with hpos | rfl
      · have : endedAfter false past = true := by simpa [hpos] using hopen
        simp [messages_told, this]
      · simp [messages]
    obtain ⟨hfile, hthere⟩ := h.unwritten (opens_told false ms) hprinted.2
    rw [htrace]
    exact ⟨lines ms, d, rfl, ⟨hlevel, hhandle, hfile, hthere⟩, by rw [hprinted.1]⟩

/-- A run opens the trace file again if it is closed. -/
theorem run_of_pos (h : Tracks past r d) (hpos : 0 < r.level) (fuel : Nat) (program : Node) (store : Store) :
    (r.run fuel program store).run.run d =
      ({ r with trace := some tracePlace }.traced fuel program store).run.run d := by
  by_cases hended : endedAfter false past = false
  · have htrace : r.trace = some tracePlace := by rw [h.handle, if_pos ⟨hpos, hended⟩]
    rw [run_of_open r htrace, ← htrace]
  · have htrace : r.trace = none := by rw [h.handle, if_neg fun hopen => hended hopen.2]
    obtain ⟨ms, -, hfile⟩ := h.exists_file hpos
    have hready : d.ready .append tracePlace = .ok (tracePlace, d) := by
      unfold Disk.ready
      rw [hfile]
    have hopened : (r.opened .append).run.run d = some (.ok { r with trace := some tracePlace }, d) := by
      rw [opened, if_pos hpos, Job.run_bind, Job.run_openFile, locate_traceFile, hready]
      rfl
    unfold Runner.run
    rw [htrace]
    dsimp only
    rw [Job.run_bind, hopened]
    rfl

/-- A run ends with what the evaluator reports, and closes the trace file. -/
theorem run_eq (h : Tracks past r d) (fuel : Nat) (program : Node) (store : Store) :
    (r.run fuel program store).run.run d = (LineLang.run r.level fuel program store).map fun report =>
      (.ok ⟨report.outcome, report.store, { r with trace := none }⟩,
        if 0 < r.level then d.append tracePlace report.trace else d) := by
  by_cases hpos : 0 < r.level
  · rw [h.run_of_pos hpos, run_traced]
    simp only [if_pos hpos]
  · have htrace : r.trace = none := by rw [h.handle, if_neg fun hopen => hpos hopen.1]
    rw [run_of_nonpos r htrace (Int.not_lt.1 hpos), run_traced, htrace]
    simp only [if_neg hpos]

/-- What a run tells goes to the trace file, which is then closed. -/
theorem run (h : Tracks past r d) {fuel : Nat} {program : Node} {store : Store} {report : Report}
    (hr : LineLang.run r.level fuel program store = some report) :
    Tracks (past ++ ofRun report.events) { r with trace := none }
      (if 0 < r.level then d.append tracePlace report.trace else d) := by
  have hlevel : r.level = levelAfter 0 (past ++ ofRun report.events) := by
    rw [levelAfter_append, levelAfter_ofRun, h.level]
  have hhandle : (none : Option Location) =
      if 0 < r.level ∧ endedAfter false (past ++ ofRun report.events) = false then some tracePlace else none := by
    simp [endedAfter_ofRun]
  by_cases hpos : 0 < r.level
  · obtain ⟨hfile, hthere⟩ := h.written hpos (opens_ofRun report.events) (messages_ofRun report.events true _)
    rw [if_pos rfl, ← trace_eq_lines] at hfile
    rw [if_pos hpos]
    exact ⟨hlevel, hhandle, hfile, fun _ => hthere⟩
  · have hnone : report.events = [] := by
      rw [run_eq_upTo] at hr
      obtain ⟨full, -, rfl⟩ := Option.map_eq_some_iff.1 hr
      exact Event.upTo_of_nonpos (Int.not_lt.1 hpos) full.events
    have hmessages : messages true (endedAfter false past) (ofRun report.events) = [] := by
      rw [messages_ofRun, hnone]
      rfl
    obtain ⟨hfile, hthere⟩ := h.unwritten (opens_ofRun report.events) hmessages
    rw [if_neg hpos]
    exact ⟨hlevel, hhandle, hfile, hthere⟩

/-- Evaluating outside a run tells nothing below level 1. -/
theorem eval_tells {fuel : Nat} {program : Node} {store : Store} {outcome : Except Fault Value} {t : State}
    (level : Int) (he : (eval level fuel program).run.run { store } = some (outcome, t)) :
    0 < level ∨ t.log.reverse.map Event.message = [] := by
  by_cases hpos : 0 < level
  · exact .inl hpos
  · have hproject : (eval level fuel program).run.run { store } = _ := eval_projects level fuel program { store }
    rw [he] at hproject
    obtain ⟨⟨o, full⟩, -, heq⟩ := Option.map_eq_some_iff.1 hproject.symm
    obtain ⟨-, rfl⟩ := Prod.mk.inj heq
    refine .inr ?_
    show (Event.upTo level full.log).reverse.map Event.message = []
    rw [Event.upTo_of_nonpos (Int.not_lt.1 hpos)]
    rfl

theorem evaluate (h : Tracks past r d) {fuel : Nat} {program : Node} {store : Store} {outcome : Except Fault Value}
    {t : State} (he : (eval r.level fuel program).run.run { store } = some (outcome, t)) :
    ∃ printed e, (r.evaluate fuel program store).run.run d = some (.ok ⟨outcome, t.store, printed⟩, e) ∧
      Tracks (past ++ (t.log.reverse.map Event.message).map (told false)) r e ∧
      printed =
        lines (messages false (endedAfter false past) ((t.log.reverse.map Event.message).map (told false))) := by
  obtain ⟨printed, e, hemit, htracks, hprinted⟩ := h.emit _ (eval_tells r.level he)
  refine ⟨printed, e, ?_, htracks, hprinted⟩
  rw [lines, List.map_map] at hemit
  unfold Runner.evaluate
  rw [he]
  dsimp only
  rw [Job.run_bind, show (fun e : Event => e.message ++ "\n") = (· ++ "\n") ∘ Event.message from rfl, hemit]
  rfl

theorem evaluate_none {fuel : Nat} {program : Node} {store : Store}
    (he : (eval r.level fuel program).run.run { store } = none) :
    (r.evaluate fuel program store).run.run d = none := by
  unfold Runner.evaluate
  rw [he]
  rfl

theorem congr (h : Tracks past r d) {r' : Runner} (hlevel : r'.level = r.level) (htrace : r'.trace = r.trace) :
    Tracks past r' d :=
  ⟨hlevel.trans h.level, by rw [htrace, hlevel, h.handle], h.file, by rw [hlevel]; exact h.there⟩

end Tracks

end Runner

/-! ## Sessions -/

/-- A request with the fuel for its program and the name of its store. -/
structure Ask where
  fuel : Nat
  store : Option String
  request : Request
  deriving DecidableEq, Repr

namespace Session

open Happening

/-- What happens when a request is answered, if its program ends. -/
def happenings (s : Session) (a : Ask) : Option (List Happening) :=
  match a.request with
  | .run manner source =>
    match manner.parse source with
    | .error _ => some []
    | .ok program => do
      let report ← LineLang.run s.runner.level a.fuel program (s.store a.store)
      return ofRun report.events
  | .evaluate manner source =>
    match manner.parse source with
    | .error _ => some []
    | .ok program => do
      let (_, t) ← (eval s.runner.level a.fuel program).run.run { store := s.store a.store }
      return (t.log.reverse.map Event.message).map (told false)
  | .tell message => some (if 0 < s.runner.level then [told false message] else [])
  | .renew level mode => some [.made level mode]
  | .get _ | .set .. | .contains _ | .trace => some []

def answer (s : Session) (a : Ask) : Option (Session × Answer) := s.step a.fuel a.store a.request

theorem tracks_withStore {s : Session} {past : List Happening} (h : s.runner.Tracks past s.disk) (name : Option String)
    (store : Store) : (s.withStore name store).runner.Tracks past (s.withStore name store).disk := by
  cases name with
  | none => exact h.congr rfl rfl
  | some name => exact h

theorem perform_some {α : Type} {s : Session} {job : Job α} {d : Disk} {a : α}
    (h : job.run.run s.disk = some (.ok a, d)) (finish : α → Session → Session × Answer) :
    s.perform job finish = some (finish a { s with disk := d }) := by
  unfold perform
  rw [h]
  rfl

theorem perform_none {α : Type} {s : Session} {job : Job α} (h : job.run.run s.disk = none)
    (finish : α → Session → Session × Answer) : s.perform job finish = none := by
  unfold perform
  rw [h]
  rfl

/-- What has happened is followed by `new`, and the answer prints the messages among it that are to be printed. -/
structure Goes (past new : List Happening) (s : Session) (r : Answer) : Prop where
  tracks : s.runner.Tracks (past ++ new) s.disk
  printed : r.printed = lines (messages false (endedAfter false past) new)

theorem goes_nil {past : List Happening} {s : Session} (h : s.runner.Tracks past s.disk) (reply : Reply) :
    Goes past [] s { reply } := ⟨by rwa [List.append_nil], rfl⟩

/-- One request: it has no answer if its program does not end. -/
theorem step_goes {past : List Happening} {s : Session} (h : s.runner.Tracks past s.disk) (a : Ask) :
    (s.happenings a = none ∧ s.answer a = none) ∨
    ∃ new s' r, s.happenings a = some new ∧ s.answer a = some (s', r) ∧ Goes past new s' r := by
  obtain ⟨fuel, name, request⟩ := a
  unfold happenings answer
  cases request with
  | run manner source =>
    dsimp only [step]
    cases manner.parse source with
    | error e => exact .inr ⟨_, _, _, rfl, rfl, goes_nil h _⟩
    | ok program =>
      dsimp only
      have hrun := h.run_eq fuel program (s.store name)
      cases hr : LineLang.run s.runner.level fuel program (s.store name) with
      | none =>
        rw [hr] at hrun
        exact .inl ⟨rfl, perform_none hrun _⟩
      | some report =>
        rw [hr] at hrun
        refine .inr ⟨_, _, _, rfl, perform_some hrun _, tracks_withStore ?_ name _, ?_⟩
        · exact (h.run hr).congr rfl rfl
        · rw [messages_ofRun]
          rfl
  | evaluate manner source =>
    dsimp only [step]
    cases manner.parse source with
    | error e => exact .inr ⟨_, _, _, rfl, rfl, goes_nil h _⟩
    | ok program =>
      dsimp only
      cases he : (eval s.runner.level fuel program).run.run { store := s.store name } with
      | none => exact .inl ⟨rfl, perform_none (Runner.Tracks.evaluate_none he) _⟩
      | some result =>
        obtain ⟨outcome, t⟩ := result
        obtain ⟨printed, e, hrun, htracks, hprinted⟩ := h.evaluate he
        exact .inr ⟨_, _, _, rfl, perform_some hrun _, tracks_withStore htracks name _, hprinted⟩
  | tell message =>
    dsimp only [step]
    by_cases hpos : 0 < s.runner.level
    · have hms : lines [message] = message ++ "\n" := by simp [lines]
      obtain ⟨printed, e, hrun, htracks, hprinted⟩ := h.emit [message] (.inl hpos)
      rw [if_pos hpos]
      rw [hms] at hrun
      refine .inr ⟨_, _, _, rfl, perform_some (d := e) (a := printed) ?_ _, htracks, hprinted⟩
      rw [Runner.tell, if_pos hpos, hrun]
    · rw [if_neg hpos]
      refine .inr ⟨_, _, _, rfl, perform_some (d := s.disk) (a := "") ?_ _, goes_nil h _⟩
      rw [Runner.tell, if_neg hpos]
      rfl
  | get x => exact .inr ⟨_, _, _, rfl, rfl, goes_nil h _⟩
  | set x value => exact .inr ⟨_, _, _, rfl, rfl, goes_nil (tracks_withStore h name _) _⟩
  | contains x => exact .inr ⟨_, _, _, rfl, rfl, goes_nil h _⟩
  | renew level mode =>
    dsimp only [step]
    obtain ⟨r, e, hstart, htracks⟩ := h.file.start level mode
    exact .inr ⟨_, _, _, rfl, perform_some hstart _, htracks, rfl⟩
  | trace => exact .inr ⟨_, _, _, rfl, rfl, goes_nil h _⟩

/-- What is left when requests have been answered one after the other. -/
structure Course where
  happened : List Happening
  printed : String
  session : Session

/-- Answers requests one after the other. -/
def follow (s : Session) : List Ask → Option Course
  | [] => some ⟨[], "", s⟩
  | a :: asks => do
    let new ← s.happenings a
    let (s, r) ← s.answer a
    let c ← s.follow asks
    return ⟨new ++ c.happened, r.printed ++ c.printed, c.session⟩

theorem follow_goes {past : List Happening} {s : Session} (h : s.runner.Tracks past s.disk) {asks : List Ask}
    {c : Course} (hc : s.follow asks = some c) : c.session.runner.Tracks (past ++ c.happened) c.session.disk ∧
      c.printed = lines (messages false (endedAfter false past) c.happened) := by
  induction asks generalizing past s c with
  | nil =>
    obtain rfl := Option.some.inj hc
    exact ⟨by rwa [List.append_nil], rfl⟩
  | cons a asks ih =>
    rcases step_goes h a with ⟨hnone, -⟩ | ⟨new, s', r, hnew, hanswer, hgoes⟩
    · rw [follow, hnone] at hc
      cases hc
    · rw [follow, hnew, hanswer] at hc
      change ((s'.follow asks).bind fun c =>
        some ⟨new ++ c.happened, r.printed ++ c.printed, c.session⟩) = some c at hc
      obtain ⟨c', hc', heq⟩ := Option.bind_eq_some_iff.1 hc
      obtain rfl := Option.some.inj heq
      obtain ⟨htracks, hprinted⟩ := ih hgoes.tracks hc'
      refine ⟨by rwa [List.append_assoc] at htracks, ?_⟩
      rw [messages_append, lines_append, ← endedAfter_append, ← hprinted, ← hgoes.printed]

/-- Every session starts, and after any requests every message is where it belongs, once and in the order in which the
messages were told. The printed ones are those told outside a run once the runner in use has ended a run. The trace file
is not there before a runner that keeps a trace is made, and holds the other messages told since such a runner last
emptied it, or since it is there. Once the runner in use has ended a run, the trace file is closed between requests.
A request has an answer if its program ends. -/
theorem messages_written_once (level : Int) : ∃ first, start level = some first ∧
    ∀ (asks : List Ask) (c : Course), first.follow asks = some c →
      let past := .made level .truncate :: c.happened
      c.session.runner.level = levelAfter 0 past ∧
      c.printed = lines (messages false false past) ∧
      c.session.disk.at? Runner.tracePlace =
        (fileMessages past).map (fun ms => .file (Text.encode (lines ms))) ∧
      (endedAfter false past = true → c.session.runner.trace = none) ∧
      ∀ a, (c.session.answer a).isSome = (c.session.happenings a).isSome := by
  have hempty : Runner.Holds [] {} := rfl
  obtain ⟨r, e, hstart, htracks⟩ := hempty.start level .truncate
  refine ⟨{ runner := r, disk := e }, ?_, fun asks c hc => ?_⟩
  · unfold start
    rw [hstart]
    rfl
  · have hfirst : ({ runner := r, disk := e } : Session).runner.Tracks [.made level .truncate] e := htracks
    obtain ⟨hc, hprinted⟩ := follow_goes hfirst hc
    refine ⟨hc.level, hprinted, hc.file, fun hended => ?_, fun a => ?_⟩
    · rw [hc.handle, if_neg fun hopen => Bool.false_ne_true (hopen.2.symm.trans hended)]
    · rcases step_goes hc a with ⟨hnone, hanswer⟩ | ⟨new, s', r, hnew, hanswer, -⟩
      · rw [hnone, hanswer]
        rfl
      · rw [hnew, hanswer]
        rfl

/-- Three runners: the second one empties the trace file, the third one writes behind its end. -/
def threeRunners : List Ask :=
  [⟨0, none, .tell "old"⟩, ⟨0, none, .renew 2 .truncate⟩, ⟨5, none, .evaluate .tolerant "x = 1"⟩,
    ⟨5, none, .run .tolerant "print x"⟩, ⟨0, none, .tell "note"⟩, ⟨0, none, .renew 1 .append⟩,
    ⟨0, none, .tell "more"⟩, ⟨5, none, .run .tolerant "y = 2"⟩]

theorem messages_written_once_threeRunners :
    ∃ first c, start 1 = some first ∧ first.follow threeRunners = some c ∧ c.printed = "note\n" ∧
      c.session.disk.at? Runner.tracePlace = some (.file (Text.encode
        "assign x = 1\nparsed program:\nprint x\n\nresult: 1\nmore\nparsed program:\ny = 2\n\nresult: nil\n")) ∧
      c.session.runner.trace = none := by
  obtain ⟨first, hstart, h⟩ := messages_written_once 1
  have hfollow : ((start 1).bind fun s => (s.follow threeRunners).map Course.happened) =
      some [.told false "old", .made 2 .truncate, .told false "assign x = 1", .told true "parsed program:\nprint x\n",
        .told true "result: 1", .ended, .told false "note", .made 1 .append, .told false "more",
        .told true "parsed program:\ny = 2\n", .told true "result: nil", .ended] := by decide +kernel
  rw [hstart, Option.bind_some] at hfollow
  obtain ⟨c, hc, hhappened⟩ := Option.map_eq_some_iff.1 hfollow
  obtain ⟨-, hprinted, hfile, hclosed, -⟩ := h threeRunners c hc
  rw [hhappened] at hprinted hfile hclosed
  refine ⟨first, c, hstart, hc, ?_, ?_, hclosed rfl⟩
  · rw [hprinted]
    decide
  · rw [hfile]
    decide +kernel

end Session

end LineLang
