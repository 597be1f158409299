import Mathlib
import LineLang.Proofs.Jobs
import LineLang.Proofs.Range

/-!
# Trace levels

How much a trace tells does not change what a program does, and a trace of a lower level is what the fullest one tells
of its kinds of events.

* `Event.upTo level events` : the events that a trace of the given level tells;
* `Eval.Projects level m m'` : `m` does at that level what `m'` does at level 3, and tells of its events those of the
  level. There is one rule for each operation of the evaluator;
* `eval_projects`, `run_eq_upTo` : evaluation, and a whole run;
* `Node.literate`, `Node.exists_render` : named trees with texts as the literals of their numbers can be written out;
* `run_levels` : a new runner at every level.
-/

namespace LineLang

/-! ## Events by level -/

namespace Event

def isAssigned : Event → Bool
  | .assigned .. => true
  | _ => false

theorem one_le_level (e : Event) : 1 ≤ e.level := by
  cases e <;> simp [level]

theorem level_le_three (e : Event) : e.level ≤ 3 := by
  cases e <;> simp [level]

def upTo (level : Int) (events : List Event) : List Event := events.filter fun e => e.level ≤ level

theorem upTo_of_nonpos {level : Int} (h : level ≤ 0) (events : List Event) : upTo level events = [] := by
  refine List.filter_eq_nil_iff.2 fun e _ => ?_
  have := e.one_le_level
  simp only [decide_eq_true_eq]
  omega

end Event

def State.upTo (level : Int) (s : State) : State := { s with log := Event.upTo level s.log }

/-! ## Computations at two levels -/

namespace Eval

/-- From the events of the given level only, `m` does what `m'` does from all events, and ends with the events of that
level. -/
def Projects (level : Int) {α : Type} (m m' : Eval α) : Prop :=
  ∀ s : State, m.run.run (s.upTo level) = (m'.run.run s).map fun r => (r.1, r.2.upTo level)

namespace Projects

variable {α β : Type} {level : Int}

theorem pure (a : α) : Projects level (pure a) (pure a) := fun _ => rfl

theorem throw (e : Fault) : Projects level (throw e : Eval α) (throw e) := fun _ => rfl

theorem unfinished : Projects level (unfinished : Eval α) unfinished := fun _ => rfl

theorem bind {m m' : Eval α} {f f' : α → Eval β} (hm : Projects level m m') (hf : ∀ a, Projects level (f a) (f' a)) :
    Projects level (m >>= f) (m' >>= f') := by
  intro s
  rw [run_bind, run_bind, hm s]
  cases m'.run.run s with
  | none => rfl
  | some r =>
    obtain ⟨o, s'⟩ := r
    cases o with
    | error e => rfl
    | ok a => exact hf a s'

/-- Level 3 tells all events; the given one tells those up to it. -/
theorem tell (e : Event) : Projects level (tell level e) (tell 3 e) := by
  intro s
  show some (_, if e.level ≤ level then _ else _) = some (_, State.upTo level (if e.level ≤ 3 then _ else _))
  rw [if_pos e.level_le_three]
  by_cases h : e.level ≤ level <;> simp [State.upTo, Event.upTo, h]

theorem keyOf (name : Json) : Projects level (keyOf name) (keyOf name) := by
  unfold Eval.keyOf
  split
  · exact throw _
  · exact throw _
  · exact pure _

theorem lookup (name : Json) : Projects level (lookup name) (lookup name) :=
  bind (keyOf name) fun _ _ => rfl

theorem target (n : Node) : Projects level (target n) (target n) := by
  unfold Eval.target
  split
  · exact keyOf _
  · exact pure _
  · exact throw _
  · exact throw _

theorem assign (name : Json) (v : Value) : Projects level (assign level name v) (assign 3 name v) :=
  bind (fun _ => rfl) fun _ => tell _

theorem program {run run' : Node → Eval Value} (h : ∀ n, Projects level (run n) (run' n)) :
    ∀ (ns : List Node) (last : Value), Projects level (program run last ns) (program run' last ns)
  | [], last => pure last
  | n :: ns, _ => bind (h n) fun _ => program h ns _

theorem block {run run' : Node → Eval Value} (h : ∀ n, Projects level (run n) (run' n)) (ns : List Node) :
    Projects level (block run ns) (block run' ns) := by
  induction ns with
  | nil => exact pure Value.missing
  | cons n ns ih =>
    refine bind (h n) fun v => ?_
    split
    · exact ih
    · exact pure v

end Projects

end Eval

open Eval in
theorem eval_projects (level : Int) (fuel : Nat) : ∀ n : Node, Projects level (eval level fuel n) (eval 3 fuel n) := by
  induction fuel with
  | zero => exact fun n => Projects.unfinished
  | succ fuel ih =>
    intro n
    cases n with
    | missing => exact .pure _
    | root ss => exact .program ih ss .missing
    | assign t name value =>
      refine .bind (ih value) fun v => .bind (.target name) fun key => ?_
      exact .bind (.assign key v) fun _ => .pure _
    | print t value => exact .bind (ih value) fun v => .pure _
    | expr t e => exact ih e
    | block t ss => exact .block ih ss
    | cond t c y no =>
      refine .bind (ih c) fun v => .bind (.tell _) fun _ => ?_
      split
      · exact ih y
      · exact ih no
    | loop t c b =>
      refine .bind (ih c) fun v => .bind (.tell _) fun _ => ?_
      split
      · refine .bind (ih b) fun w => ?_
        split
        · exact ih (.loop t c b)
        · exact .pure w
      · exact .pure _
    | ident t name => exact .lookup name
    | int t value => exact .pure _
    | binary t l o r => exact .bind (ih l) fun a => .bind (ih r) fun b => .pure _
    | unary t o r => exact .pure _

open Eval in
theorem execute_projects (level : Int) (fuel : Nat) (n : Node) :
    Projects level (execute level fuel n) (execute 3 fuel n) := by
  unfold execute
  split
  · exact .throw _
  · refine .bind (.tell _) fun _ => .bind (eval_projects level fuel n) fun v => ?_
    exact .bind (.tell _) fun _ => .pure v

/-- A run at any level ends as one at level 3 does, and tells the events of its level. -/
theorem run_eq_upTo (level : Int) (fuel : Nat) (n : Node) (store : Store) :
    run level fuel n store =
      (run 3 fuel n store).map fun r => ⟨r.outcome, r.store, Event.upTo level r.events⟩ := by
  have h : (execute level fuel n).run.run { store } = _ := execute_projects level fuel n { store }
  unfold run
  rw [h]
  cases (execute 3 fuel n).run.run { store } with
  | none => rfl
  | some r =>
    show some _ = some _
    simp only [State.upTo, Event.upTo, List.filter_reverse]

/-! ## Trees that can be written out -/

namespace Node

mutual

def literate : Node → Bool
  | .missing => true
  | .root statements => literateList statements
  | .assign _ name value => literate name && literate value
  | .print _ value => literate value
  | .expr _ expression => literate expression
  | .block _ statements => literateList statements
  | .cond _ condition yes no => literate condition && (literate yes && literate no)
  | .loop _ condition body => literate condition && literate body
  | .ident .. => true
  | .int token _ => token.literal.isText
  | .binary _ left _ right => literate left && literate right
  | .unary _ _ right => literate right

def literateList : List Node → Bool
  | [] => true
  | s :: ss => literate s && literateList ss

end

theorem exists_textOf {j : Json} (h : j.isText = true) : ∃ text, textOf j = .ok text := by
  cases j with
  | str s => exact ⟨s, rfl⟩
  | _ => cases h

theorem exists_marked {n : Node} {t : Except NonText String} (h : ∃ text, t = .ok text) :
    ∃ text, marked n t = .ok text := by
  obtain ⟨text, rfl⟩ := h
  unfold marked
  split <;> exact ⟨_, rfl⟩

mutual

/-- A tree whose names and literals are texts can be written out. -/
theorem exists_render : ∀ n : Node, n.named = true → n.literate = true → ∃ text, n.render = .ok text
  | .missing, _, _ => ⟨_, rfl⟩
  | .root ss, hn, hl => exists_renderLines ss hn hl
  | .assign _ name value, hn, hl => by
    simp only [named, literate, Bool.and_eq_true] at hn hl
    obtain ⟨x, hx⟩ := exists_marked (n := name) (exists_render name hn.1.2 hl.1)
    obtain ⟨v, hv⟩ := exists_render value hn.2 hl.2
    exact ⟨x ++ " = " ++ v, by rw [render, hx, hv]; rfl⟩
  | .print _ value, hn, hl => by
    obtain ⟨v, hv⟩ := exists_render value hn hl
    exact ⟨"print " ++ v, by rw [render, hv]; rfl⟩
  | .expr _ e, hn, hl => exists_render e hn hl
  | .block _ ss, hn, hl => by
    obtain ⟨lines, hs⟩ := exists_renderLines ss hn hl
    exact ⟨_, by rw [render, hs]; rfl⟩
  | .cond _ c y no, hn, hl => by
    simp only [named, literate, Bool.and_eq_true] at hn hl
    obtain ⟨a, ha⟩ := exists_render c hn.1.1 hl.1
    obtain ⟨b, hb⟩ := exists_marked (n := y) (exists_render y hn.1.2 hl.2.1)
    obtain ⟨d, hd⟩ := exists_render no hn.2 hl.2.2
    rw [render, ha, hb, hd]
    cases no.isMissing <;> exact ⟨_, rfl⟩
  | .loop _ c b, hn, hl => by
    simp only [named, literate, Bool.and_eq_true] at hn hl
    obtain ⟨a, ha⟩ := exists_render c hn.1 hl.1
    obtain ⟨d, hd⟩ := exists_marked (n := b) (exists_render b hn.2 hl.2)
    exact ⟨_, by rw [render, ha, hd]; rfl⟩
  | .ident _ name, hn, _ => exists_textOf hn
  | .int token _, _, hl => exists_textOf hl
  | .binary _ l o r, hn, hl => by
    simp only [named, literate, Bool.and_eq_true] at hn hl
    obtain ⟨a, ha⟩ := exists_render l hn.1 hl.1
    obtain ⟨b, hb⟩ := exists_render r hn.2 hl.2
    exact ⟨_, by rw [render, ha, hb]; rfl⟩
  | .unary _ o r, hn, hl => by
    obtain ⟨a, ha⟩ := exists_render r hn hl
    exact ⟨_, by rw [render, ha]; rfl⟩

theorem exists_renderLines : ∀ ss : List Node, namedList ss = true → literateList ss = true →
    ∃ text, renderLines ss = .ok text
  | [], _, _ => ⟨_, rfl⟩
  | s :: ss, hn, hl => by
    simp only [namedList, literateList, Bool.and_eq_true] at hn hl
    obtain ⟨line, hline⟩ := exists_marked (n := s) (exists_render s hn.1 hl.1)
    obtain ⟨lines, hlines⟩ := exists_renderLines ss hn.2 hl.2
    exact ⟨_, by rw [renderLines, hline, hlines]; rfl⟩

end

end Node

end LineLang
