import LineLang.Command.Run
import LineLang.Proofs.Octets
import LineLang.Proofs.StrictParser

/-!
# Words that are text

A command line whose words are text asks for work on files whose paths are text.

* `Path.IsText` : the names of a path are text, and so is the path;
* `Command.Word.IsText`, `Command.classify_isText` : what a word is taken for;
* `Command.unfoldLetters_isText` : the arguments in a word of joined letters, in either reading;
* `Command.Settings.IsText`, `Command.settle_isText` : what all the words ask for;
* `Command.Task.output?` : the file that a task writes. Its path is text if the words are.
-/

namespace LineLang

open Text (IsText)
open Strict (bind_eq_ok)

/-- Octets are cut where one of them first stands. -/
theorem eq_of_dropWhile {b c : UInt8} {xs ys : Octets} (h : xs.dropWhile (· != b) = c :: ys) :
    xs = xs.takeWhile (· != b) ++ b :: ys := by
  have hc := List.head?_dropWhile_not (· != b) xs
  rw [h] at hc
  have hcb : c = b := by simpa using hc
  rw [hcb] at h
  rw [← h, List.takeWhile_append_dropWhile]

/-! ## Paths -/

namespace Path

def IsText (p : Path) : Prop := ∀ s ∈ p.parts, Text.IsText s

theorem intercalate_cons_cons (p q : Octets) (parts : List Octets) :
    [Octet.slash].intercalate (p :: q :: parts) = p ++ Octet.slash :: [Octet.slash].intercalate (q :: parts) := by
  simp [List.intercalate]

theorem isText_of_intercalate : ∀ {parts : List Octets}, Text.IsText ([Octet.slash].intercalate parts) →
    ∀ s ∈ parts, Text.IsText s
  | [], _, s, hs => by cases hs
  | [p], h, s, hs => by
    rw [List.mem_singleton.1 hs]
    simpa [List.intercalate] using h
  | p :: q :: parts, h, s, hs => by
    rw [intercalate_cons_cons] at h
    obtain ⟨hp, hrest⟩ := h.split (by decide)
    rcases List.mem_cons.1 hs with rfl | hs
    · exact hp
    · exact isText_of_intercalate hrest s hs

theorem isText_intercalate : ∀ {parts : List Octets}, (∀ s ∈ parts, Text.IsText s) →
    Text.IsText ([Octet.slash].intercalate parts)
  | [], _ => .nil
  | [p], h => by simpa [List.intercalate] using h
  | p :: q :: parts, h => by
    rw [intercalate_cons_cons]
    obtain ⟨hp, hrest⟩ := List.forall_mem_cons.1 h
    exact hp.append ((Text.IsText.encode "/").append (isText_intercalate hrest))

theorem isText_ofText {s : Octets} (h : Text.IsText s) : (ofText s).IsText := by
  have hsegments : ∀ x ∈ segments s, Text.IsText x :=
    isText_of_intercalate (by rwa [segments, List.intercalate_splitOn])
  exact fun x hx => hsegments x (List.mem_filter.1 hx).1

variable {p : Path}

theorem IsText.text (h : p.IsText) : Text.IsText p.text := by
  unfold Path.text
  split
  · exact .encode "."
  · have hstart : Text.IsText p.start.text := by
      cases p.start
      · exact .nil
      · exact .encode "/"
      · exact .encode "//"
    exact hstart.append (isText_intercalate h)

theorem IsText.name (h : p.IsText) : Text.IsText p.name := by
  unfold Path.name
  cases hl : p.parts.getLast? with
  | none => exact .nil
  | some name => exact h name (List.mem_of_getLast? hl)

theorem IsText.withName (h : p.IsText) {name : Octets} (hn : Text.IsText name) : (p.withName name).IsText := by
  intro s hs
  rcases List.mem_append.1 hs with hs | hs
  · exact h s ((List.dropLast_sublist p.parts).subset hs)
  · rwa [List.mem_singleton.1 hs]

/-- A name is cut at a dot, which is part of no other character. -/
theorem isText_stem {name : Octets} (h : Text.IsText name) : Text.IsText (stem name) := by
  unfold stem
  dsimp only
  split
  · exact h
  cases hback : name.reverse.dropWhile (· != Octet.dot) with
  | nil =>
    have hwhole : name.reverse.takeWhile (· != Octet.dot) = name.reverse := by
      rw [← List.append_nil (List.takeWhile _ _), ← hback, List.takeWhile_append_dropWhile]
    rw [hwhole, List.length_reverse, Nat.sub_self]
    exact .nil
  | cons b front =>
    have hback := eq_of_dropWhile hback
    generalize name.reverse.takeWhile (· != Octet.dot) = suffix at hback ⊢
    have hname : name = front.reverse ++ Octet.dot :: suffix.reverse := by
      rw [← List.reverse_reverse name, hback]
      simp
    have hlen : name.length - suffix.length - 1 = front.reverse.length := by
      rw [hname, List.length_append, List.length_cons, List.length_reverse, List.length_reverse]
      omega
    rw [hlen]
    rw [hname] at h ⊢
    rw [List.take_left]
    exact (h.split (by decide)).1

theorem IsText.withSuffix? (h : p.IsText) {suffix : Octets} (hs : Text.IsText suffix) :
    ∀ q ∈ p.withSuffix? suffix, q.IsText := by
  intro q hq
  unfold Path.withSuffix? at hq
  split at hq
  · cases hq
  · rw [← Option.some.inj hq]
    exact h.withName ((isText_stem h.name).append hs)

end Path

/-! ## Single words -/

namespace Command

def Word.IsText : Word → Prop
  | .mark => True
  | .operand text | .stranger text => Text.IsText text
  | .option _ _ argument => ∀ a ∈ argument, Text.IsText a.text

/-- Options are spelled in letters and dashes. -/
theorem low_of_spelling {b : UInt8} : ∀ entry ∈ Flag.table, b ∈ Text.encode entry.1 → b < 0x80 := by
  intro entry hentry hb
  have hall : Flag.table.all (fun entry => (Text.encode entry.1).all (· < 0x80)) = true := by decide
  simpa using List.all_eq_true.1 (List.all_eq_true.1 hall entry hentry) b hb

theorem low_of_ofSpelling? {word : Octets} {f : Flag} (h : Flag.ofSpelling? word = some f) {b : UInt8}
    (hb : b ∈ word) : b < 0x80 := by
  obtain ⟨entry, hfind, -⟩ := Option.map_eq_some_iff.1 h
  have hword := List.find?_some hfind
  rw [decide_eq_true_iff] at hword
  exact low_of_spelling entry (List.mem_of_find?_eq_some hfind) (hword ▸ hb)

theorem splitSign_isText {word : Octets} (h : IsText word) : ∀ a ∈ (splitSign word).2, IsText a.text := by
  intro a ha
  unfold splitSign at ha
  split at ha
  · cases ha
  · next b after hdrop =>
    rw [eq_of_dropWhile hdrop] at h
    rw [← Option.some.inj ha]
    exact (h.split (by decide)).2

theorem abbreviated_isText {word : Octets} (h : IsText word) : ∀ entry ∈ abbreviated word, entry.2.IsText := by
  intro entry hentry
  unfold abbreviated at hentry
  split at hentry
  · obtain ⟨⟨s, f⟩, hmem, hsome⟩ := List.mem_filterMap.1 hentry
    dsimp only at hsome
    split at hsome
    · next htake =>
      rw [← Option.some.inj hsome]
      rintro a ⟨⟩
      match word, h, htake with
      | [], _, _ => exact .nil
      | [x], _, _ => exact .nil
      | x :: y :: ys, h, htake =>
        have hlow : ∀ b ∈ [x, y], b < 0x80 := fun b hb => low_of_spelling (s, f) hmem (htake ▸ hb)
        exact (h.tail (hlow x (by simp))).tail (hlow y (by simp))
    split at hsome
    · rw [← Option.some.inj hsome]
      rintro a ⟨⟩
    · cases hsome
  · have hattached := splitSign_isText h
    generalize splitSign word = pieces at hentry hattached
    obtain ⟨⟨s, f⟩, hmem, hsome⟩ := List.mem_filterMap.1 hentry
    dsimp only at hsome
    split at hsome
    · rw [← Option.some.inj hsome]
      exact hattached
    · cases hsome

theorem classify_isText {word : Octets} (h : IsText word) {w : Word} (hw : classify word = .ok w) : w.IsText := by
  unfold classify at hw
  split at hw
  · split at hw
    · split at hw
      · rw [← Except.ok.inj hw]
        rintro a ⟨⟩
      · dsimp only at hw
        split at hw
        · next f a _ hargument =>
          rw [← Except.ok.inj hw]
          rintro a ⟨⟩
          exact splitSign_isText h _ hargument
        · split at hw
          · next found hfound =>
            rw [← Except.ok.inj hw]
            exact abbreviated_isText h _ (by rw [hfound]; exact List.mem_singleton_self _)
          · split at hw
            · rw [← Except.ok.inj hw]
              exact h
            · rw [← Except.ok.inj hw]
              exact h
          · cases hw
    · rw [← Except.ok.inj hw]
      exact h
  · rw [← Except.ok.inj hw]
    exact h

theorem classifyAll_isText {words : List Octets} (h : ∀ word ∈ words, IsText word) {ws : List Word}
    (hws : classifyAll words = .ok ws) : ∀ w ∈ ws, w.IsText := by
  induction words generalizing ws with
  | nil =>
    rw [← Except.ok.inj hws]
    exact List.forall_mem_nil _
  | cons word words ih =>
    obtain ⟨hword, hwords⟩ := List.forall_mem_cons.1 h
    unfold classifyAll at hws
    split at hws
    · rw [← Except.ok.inj hws]
      refine List.forall_mem_cons.2 ⟨trivial, fun w hw => ?_⟩
      obtain ⟨operand, hoperand, rfl⟩ := List.mem_map.1 hw
      exact hwords operand hoperand
    · obtain ⟨w, hw, hws⟩ := bind_eq_ok.1 hws
      obtain ⟨rest, hrest, hws⟩ := bind_eq_ok.1 hws
      rw [← Except.ok.inj hws]
      exact List.forall_mem_cons.2 ⟨classify_isText hword hw, ih hwords hrest⟩

/-! ## Joined options -/

def ArgumentsAreText (options : List (Flag × Option Octets)) : Prop := ∀ o ∈ options, ∀ a ∈ o.2, IsText a

theorem ArgumentsAreText.cons {f : Flag} {argument : Option Octets} {options : List (Flag × Option Octets)}
    (ha : ∀ a ∈ argument, IsText a) (h : ArgumentsAreText options) : ArgumentsAreText ((f, argument) :: options) :=
  List.forall_mem_cons.2 ⟨ha, h⟩

theorem argumentsAreText_plain (f : Flag) : ArgumentsAreText [(f, none)] :=
  .cons (by rintro a ⟨⟩) (List.forall_mem_nil _)

theorem argumentsAreText_single {text : Octets} (h : IsText text) (f : Flag) : ArgumentsAreText [(f, some text)] :=
  .cons (by rintro a ⟨⟩; exact h) (List.forall_mem_nil _)

theorem argumentsAreText_last (f : Flag) : ArgumentsAreText (Unfolded.last f).complete := by
  unfold Unfolded.last
  split
  · exact List.forall_mem_nil _
  · exact argumentsAreText_plain f

theorem ArgumentsAreText.push {f : Flag} {r : Except UsageFault Unfolded} {u : Unfolded}
    (hu : r.map (Unfolded.push f) = .ok u) (hr : ∀ {v : Unfolded}, r = .ok v → ArgumentsAreText v.complete) :
    ArgumentsAreText u.complete := by
  cases r with
  | error e => cases hu
  | ok v =>
    rw [← Except.ok.inj hu]
    exact .cons (by rintro a ⟨⟩) (hr rfl)

theorem unfoldLetters_isText {reading : Reading} {f : Flag} {signed : Bool} {letters : Octets} (h : IsText letters)
    {u : Unfolded} (hu : unfoldLetters reading f signed letters = .ok u) : ArgumentsAreText u.complete := by
  -- a letter that names an option is a character of its own
  have letter : ∀ {c : UInt8} {cs : Octets} {g : Flag}, Flag.ofSpelling? [Octet.dash, c] = some g →
      IsText (c :: cs) → IsText cs :=
    fun hg h => h.tail (low_of_ofSpelling? hg (by simp))
  fun_induction unfoldLetters reading f signed letters generalizing u with
  | case1 | case2 | case3 => cases hu
  | case4 f =>
    rw [← Except.ok.inj hu]
    exact argumentsAreText_plain f
  | case5 f _ c _ g hg =>
    rw [← Except.ok.inj hu]
    exact .cons (by rintro a ⟨⟩) (argumentsAreText_last g)
  | case6 f _ c _ g e rest hg hsign harg =>
    rw [← Except.ok.inj hu]
    have he : e = Octet.equals := by simpa using (Bool.and_eq_true_iff.1 hsign).2
    exact .cons (by rintro a ⟨⟩) (argumentsAreText_single ((letter hg h).tail (he ▸ by decide)) g)
  | case7 f _ c _ g e rest hg hsign harg ih =>
    have he : e = Octet.equals := by simpa using (Bool.and_eq_true_iff.1 hsign).2
    exact .push hu fun hv => ih ((letter hg h).tail (he ▸ by decide)) hv
  | case8 f _ c _ g e rest hg hsign harg =>
    rw [← Except.ok.inj hu]
    exact .cons (by rintro a ⟨⟩) (argumentsAreText_single (letter hg h) g)
  | case9 f _ c _ g e rest hg hsign harg ih => exact .push hu fun hv => ih (letter hg h) hv

theorem unfold_isText {reading : Reading} {f : Flag} {short : Bool} {argument : Option Attached}
    (h : ∀ a ∈ argument, IsText a.text) {u : Unfolded} (hu : unfold reading f short argument = .ok u) :
    ArgumentsAreText u.complete := by
  unfold unfold at hu
  split at hu
  · rw [← Except.ok.inj hu]
    exact argumentsAreText_last f
  · next a =>
    split at hu
    · rw [← Except.ok.inj hu]
      exact argumentsAreText_single (h a rfl) f
    split at hu
    · exact unfoldLetters_isText (h a rfl) hu
    · cases hu

/-! ## All words -/

/-- The texts that a command line has set. -/
structure Settings.IsText (s : Settings) : Prop where
  output : ∀ text ∈ s.output, Text.IsText text
  task : ∀ t ∈ s.task, Text.IsText t.2
  program : ∀ text ∈ s.program, Text.IsText text

theorem argumentText_isText {reading : Reading} {argument : Option Octets} (h : ∀ a ∈ argument, IsText a) :
    IsText (argumentText reading argument) := by
  unfold argumentText
  cases hfilter : argument.filter fun text => reading != .early || text != mark with
  | none => exact .nil
  | some text => exact h text (Option.filter_eq_some_iff.1 hfilter).1

namespace Settings.IsText

variable {reading : Reading} {s t : Settings}

theorem apply (h : s.IsText) {f : Flag} {argument : Option Octets} (ha : ∀ a ∈ argument, Text.IsText a)
    (ht : s.apply reading f argument = .ok t) : t.IsText := by
  have htext : Text.IsText (argumentText reading argument) := argumentText_isText ha
  have htask : ∀ g : Flag, ({ s with task := some (g, argumentText reading argument) } : Settings).IsText := by
    exact fun g => ⟨h.output, by rintro t ⟨⟩; exact htext, h.program⟩
  unfold Settings.apply at ht
  cases f
  case help => cases ht
  case verbose =>
    rw [← Except.ok.inj ht]
    exact ⟨h.output, h.task, h.program⟩
  case output =>
    rw [← Except.ok.inj ht]
    exact ⟨by rintro t ⟨⟩; exact htext, h.task, h.program⟩
  all_goals
    dsimp only at ht
    split at ht
    · split at ht
      · rw [← Except.ok.inj ht]
        exact htask _
      · cases ht
    · rw [← Except.ok.inj ht]
      exact htask _

theorem applyAll (h : s.IsText) {options : List (Flag × Option Octets)} (ho : ArgumentsAreText options)
    (ht : s.applyAll reading options = .ok t) : t.IsText := by
  induction options generalizing s with
  | nil => rwa [← Except.ok.inj ht]
  | cons o options ih =>
    obtain ⟨ha, ho⟩ := List.forall_mem_cons.1 ho
    obtain ⟨s', hs', ht⟩ := bind_eq_ok.1 ht
    exact ih (h.apply ha hs') ho ht

end Settings.IsText

theorem Word.IsText.text {w : Word} (h : w.IsText) : Text.IsText w.text := by
  cases w with
  | mark => exact .encode "--"
  | operand text => exact h
  | option f short argument => exact .encode _
  | stranger text => exact h

theorem Progress.walk_isText {reading : Reading} : ∀ {ws : List Word} {p q : Progress}, (∀ w ∈ ws, w.IsText) →
    p.settings.IsText → p.walk reading ws = .ok q → q.settings.IsText
  | [], p, q, _, hp, hq => by
    rw [← Except.ok.inj hq]
    exact hp
  | .mark :: ws, p, q, hws, hp, hq => by
    obtain ⟨-, hws⟩ := List.forall_mem_cons.1 hws
    unfold walk at hq
    split at hq
    · split at hq
      · rw [← Except.ok.inj hq]
        exact hp
      · next w rest _ =>
        rw [← Except.ok.inj hq]
        exact ⟨hp.output, hp.task, by rintro t ⟨⟩; exact (hws w List.mem_cons_self).text⟩
    · rw [← Except.ok.inj hq]
      exact hp
  | .operand s :: ws, p, q, hws, hp, hq => by
    obtain ⟨hs, hws⟩ := List.forall_mem_cons.1 hws
    have hset : ({ p.settings with program := some s } : Settings).IsText :=
      ⟨hp.output, hp.task, by rintro t ⟨⟩; exact hs⟩
    unfold walk at hq
    split at hq
    · dsimp only at hq
      split at hq
      · rw [← Except.ok.inj hq]
        exact hset
      · exact walk_isText hws hset hq
    · refine walk_isText hws ?_ hq
      exact hp
  | .stranger s :: ws, p, q, hws, hp, hq => by
    unfold walk at hq
    refine walk_isText (List.forall_mem_cons.1 hws).2 ?_ hq
    exact hp
  | .option f short argument :: ws, p, q, hws, hp, hq => by
    obtain ⟨harg, hws⟩ := List.forall_mem_cons.1 hws
    unfold walk at hq
    split at hq
    · cases hq
    · next u hu =>
      have hcomplete := unfold_isText harg hu
      dsimp only at hq
      split at hq
      · obtain ⟨s, hs, hq⟩ := bind_eq_ok.1 hq
        exact walk_isText hws (hp.applyAll hcomplete hs) hq
      · next g text rest _ _ =>
        obtain ⟨htext, hws⟩ := List.forall_mem_cons.1 hws
        obtain ⟨s, hs, hq⟩ := bind_eq_ok.1 hq
        have hall := List.forall_mem_append.2 ⟨hcomplete, argumentsAreText_single htext g⟩
        exact walk_isText hws (hp.applyAll hall hs) hq
      · cases hq

theorem settle_isText {reading : Reading} {words : List Octets} (h : ∀ word ∈ words, IsText word) {s : Settings}
    (hs : settle reading words = .ok s) : s.IsText := by
  obtain ⟨ws, hws, hs⟩ := bind_eq_ok.1 hs
  obtain ⟨p, hp, hs⟩ := bind_eq_ok.1 hs
  have htext : p.settings.IsText := by
    cases hclass : classifyAll words with
    | error e =>
      rw [hclass] at hws
      cases hws
    | ok found =>
      rw [hclass] at hws
      rw [← Except.ok.inj hws] at hp
      refine Progress.walk_isText (classifyAll_isText h hclass) ?_ hp
      exact ⟨by rintro t ⟨⟩, by rintro t ⟨⟩, by rintro t ⟨⟩⟩
  split at hs
  · rwa [← Except.ok.inj hs]
  · cases hs

/-! ## Tasks -/

namespace Task

/-- The texts that a task names. -/
def texts : Task → List Octets
  | .emit file | .check file | .examples file => [file]
  | .replay file output | .execute file output => file :: output.toList

def output? : Task → Option Path
  | .emit file => emitOutput (.ofText file)
  | .replay file output => replayOutput (.ofText file) output
  | .execute file output => executeOutput? (.ofText file) output
  | .check _ | .examples _ => none

theorem output?_isText {task : Task} (h : ∀ text ∈ task.texts, IsText text) : ∀ path ∈ task.output?, path.IsText := by
  intro path hpath
  have given : ∀ {text : Octets}, text ∈ task.texts → some (Path.ofText text) = some path → path.IsText := by
    intro text htext hpath
    rw [← Option.some.inj hpath]
    exact Path.isText_ofText (h text htext)
  cases task with
  | emit file =>
    have hp := Path.isText_ofText (h file List.mem_cons_self)
    rw [← Option.some.inj hpath]
    exact hp.withName (hp.name.append (.encode _))
  | replay file output =>
    have hp := Path.isText_ofText (h file List.mem_cons_self)
    cases output with
    | none =>
      rw [← Option.some.inj hpath]
      exact hp.withName (hp.name.append (.encode _))
    | some text => exact given (by simp [texts]) hpath
  | execute file output =>
    have hp := Path.isText_ofText (h file List.mem_cons_self)
    cases output with
    | none => exact hp.withSuffix? (.encode _) path hpath
    | some text => exact given (by simp [texts]) hpath
  | check file => cases hpath
  | examples folder => cases hpath

end Task

theorem Settings.IsText.plan {s : Settings} (h : s.IsText) {task : Task} (ht : s.plan = .ok task) :
    ∀ text ∈ task.texts, Text.IsText text := by
  have houtput : ∀ text ∈ (present s.output).toList, Text.IsText text := by
    intro text htext
    rw [Option.mem_toList] at htext
    exact h.output text (Option.filter_eq_some_iff.1 htext).1
  have hfile : ∀ {f : Flag} {file : Octets}, s.task.filter (·.2 != []) = some (f, file) → Text.IsText file :=
    fun hf => h.task _ (Option.filter_eq_some_iff.1 hf).1
  unfold Settings.plan at ht
  dsimp only at ht
  split at ht
  case h_1 hf | h_3 hf | h_4 hf =>
    rw [← Except.ok.inj ht]
    exact List.forall_mem_cons.2 ⟨hfile hf, List.forall_mem_nil _⟩
  case h_2 hf =>
    rw [← Except.ok.inj ht]
    exact List.forall_mem_cons.2 ⟨hfile hf, houtput⟩
  case h_5 =>
    split at ht
    · next file hfile =>
      rw [← Except.ok.inj ht]
      exact List.forall_mem_cons.2 ⟨h.program file (Option.filter_eq_some_iff.1 hfile).1, houtput⟩
    · cases ht

end Command

end LineLang
