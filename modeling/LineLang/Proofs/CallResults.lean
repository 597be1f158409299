import LineLang.Proofs.CallSteps
import LineLang.Proofs.Shape

/-!
# What calls of the tolerant parser return

A call at a window of two lexemes and the step of the parser on the list of all that are left do the same.

* `Does.agrees` : a call returns what the step returns, and passes the same lexemes;
* `Runs calls w w'` : the calls, one after the other, return and lead from `w` to `w'`;
* `Call.after calls p` : the parser behind a sequence of steps;
* `does_iff_perform` : at a place of a text a call returns in exactly one way;
* `calls_return` : every sequence of calls returns in exactly one way, and each call only moves on in the text.
-/

namespace LineLang.Tolerant

/-! ## Calls and steps -/

/-- The window shows `ts`, which is all that is left of a text. -/
structure Window.Sees (w : Window) (ts : List Lexeme) : Prop extends w.Shows ts where
  unended : Unended ts

theorem Moves.sees {w w' : Window} {ts ts' : List Lexeme} (h : Moves w ts w' ts') (hw : w.Sees ts) : w'.Sees ts' where
  toShows := h.shows hw.toShows
  unended := by
    obtain ⟨k, -, rfl⟩ := h
    exact fun t ht => hw.unended t (List.mem_of_mem_drop ht)

theorem Window.Sees.next {w : Window} {ts : List Lexeme} (hw : w.Sees ts) : w.next.Sees ts.tail :=
  (Moves.next w ts).sees hw

/-- The call returns what the step of the parser returns, and passes the same lexemes. -/
def Agrees (c : Call) (w : Window) (r : c.Result) (w' : Window) : Prop :=
  ∀ ts, w.Sees ts → ∃ ts', c.perform ts = (r, ts') ∧ Moves w ts w' ts'

theorem Agrees.expect_true {k : Kind} {w w' : Window} {ts : List Lexeme} (h : Agrees (.expect k) w true w')
    (hw : w.Sees ts) : peekIs k ts = true ∧ Moves w ts w' ts.tail := by
  obtain ⟨ts', hp, hm⟩ := h ts hw
  obtain ⟨hk, rfl⟩ := peekIs_of_perform hp
  exact ⟨hk, hm⟩

theorem Agrees.expect_false {k : Kind} {w w' : Window} {ts : List Lexeme} (h : Agrees (.expect k) w false w')
    (hw : w.Sees ts) : peekIs k ts = false ∧ Moves w ts w' ts := by
  obtain ⟨ts', hp, hm⟩ := h ts hw
  obtain ⟨hk, hts⟩ := peekIs_of_perform hp
  exact ⟨hk, (show ts' = ts from hts) ▸ hm⟩

/-- A mark, and the expression behind it. -/
theorem Agrees.marked {k : Kind} {p : Int} {w w₁ w₂ : Window} {e : Node} {ts : List Lexeme}
    (h : Agrees (.expect k) w true w₁) (he : Agrees (.expression p) w₁.next e w₂) (hw : w.Sees ts) :
    peekIs k ts = true ∧
      ∃ ts₂, (Call.expression p).perform ts.tail.tail = (e, ts₂) ∧ Moves w ts w₂ ts₂ := by
  obtain ⟨hk, hm₁⟩ := h.expect_true hw
  have hm₁' := hm₁.trans (.next w₁ _)
  obtain ⟨ts₂, hp₂, hm₂⟩ := he _ (hm₁'.sees hw)
  exact ⟨hk, ts₂, hp₂, hm₁'.trans hm₂⟩

/-- A brace that a block begins with, and that block. -/
theorem Agrees.braced {w w₁ w₂ : Window} {body : Node} {ts : List Lexeme} (h : Agrees (.expect .lbrace) w true w₁)
    (hs : Agrees .block w₁ body w₂) (hw : w.Sees ts) :
    peekIs .lbrace ts = true ∧ ∃ ts₂, Call.block.perform ts.tail = (body, ts₂) ∧ Moves w ts w₂ ts₂ := by
  obtain ⟨hk, hm₁⟩ := h.expect_true hw
  obtain ⟨ts₂, hp₂, hm₂⟩ := hs _ (hm₁.sees hw)
  exact ⟨hk, ts₂, hp₂, hm₁.trans hm₂⟩

theorem Does.agrees {c : Call} {w w' : Window} {r : c.Result} (h : Does c w r w') : Agrees c w r w' := by
  -- The induction is on the rules: the calls that a rule makes agree with their steps, and the equation of the
  -- step for that way through the method puts these together.
  induction h with
  | @next w => exact fun ts _ => ⟨ts.tail, rfl, .next w ts⟩
  | @expect k w h => exact fun ts hw => ⟨ts.tail, perform_expect_of_eq (hw.peek ▸ h), .next w ts⟩
  | @expectNot k w h => exact fun ts hw => ⟨ts, perform_expect_of_ne (hw.peek ▸ h), .refl w ts⟩
  | @program w w' ss h ih =>
    intro ts hw
    obtain ⟨ts', hp, hm⟩ := ih ts hw
    obtain ⟨rfl, rfl⟩ := Prod.mk.inj hp
    exact ⟨[], rfl, hm⟩
  | @linesEnd braced w h => exact fun ts hw => ⟨ts, perform_lines_end hw.unended (hw.cur ▸ h), .refl w ts⟩
  | @lines braced w w₁ w₂ s ss h hs hl ihs ihl =>
    intro ts hw
    obtain ⟨ts₁, hp₁, hm₁⟩ := ihs ts hw
    have hm₁' := hm₁.trans (.next w₁ ts₁)
    obtain ⟨ts₂, hp₂, hm₂⟩ := ihl ts₁.tail (hm₁'.sees hw)
    have hs : s.isMissing = false := by
      obtain ⟨rfl, -⟩ := Prod.mk.inj hp₁
      exact statement_isMissing ts
    refine ⟨ts₂, ?_, hm₁'.trans hm₂⟩
    rw [perform_lines (hw.cur ▸ h) hp₁, hp₂, hs]
    rfl
  | @statementAssign w w' s h hs ih =>
    intro ts hw
    obtain ⟨ts', hp, hm⟩ := ih ts hw
    exact ⟨ts', (perform_statement_assign (hw.cur ▸ hw.peek ▸ h)).trans hp, hm⟩
  | @statementPrint w w' s h hs ih =>
    intro ts hw
    obtain ⟨ts', hp, hm⟩ := ih ts hw
    exact ⟨ts', (perform_statement_print (hw.cur ▸ h)).trans hp, hm⟩
  | @statementExpr w w' s h hk hs ih =>
    intro ts hw
    obtain ⟨ts', hp, hm⟩ := ih ts hw
    exact ⟨ts', (perform_statement_expr (hw.cur ▸ hw.peek ▸ h) (hw.cur ▸ hk)).trans hp, hm⟩
  | @assignment w w₁ w₂ w₃ v b ha hv hn iha ihv ihn =>
    intro ts hw
    obtain ⟨hk, ts₂, hp₂, hm₂⟩ := iha.marked ihv hw
    obtain ⟨ts₃, hp₃, hm₃⟩ := ihn ts₂ (hm₂.sees hw)
    exact ⟨ts₃, hw.cur ▸ perform_assignment hk hp₂ hp₃, hm₂.trans hm₃⟩
  | @assignmentNot w w₁ ha ih =>
    intro ts hw
    obtain ⟨hk, hm⟩ := ih.expect_false hw
    exact ⟨ts, perform_assignment_none hk, hm⟩
  | @printing w w₁ w₂ v hv hl ihv ihl =>
    intro ts hw
    obtain ⟨ts₁, hp₁, hm₁⟩ := ihv ts.tail hw.next
    have hm₁' := (Moves.next w ts).trans hm₁
    obtain ⟨ts₂, hp₂, hm₂⟩ := ihl ts₁ (hm₁'.sees hw)
    refine ⟨ts₂, ?_, hm₁'.trans hm₂⟩
    rw [perform_printing hp₁, hp₂, hw.cur]
  | @restOfLineEnd w h =>
    exact fun ts hw => ⟨ts, perform_restOfLine_end hw.unended (hw.cur ▸ h), .refl w ts⟩
  | @restOfLine w w' h hl ih =>
    intro ts hw
    obtain ⟨ts', hp, hm⟩ := ih ts.tail hw.next
    exact ⟨ts', (perform_restOfLine (hw.cur ▸ h)).trans hp, (Moves.next w ts).trans hm⟩
  | @expressionStatement w w₁ w₂ e b he hn ihe ihn =>
    intro ts hw
    obtain ⟨ts₁, hp₁, hm₁⟩ := ihe ts hw
    obtain ⟨ts₂, hp₂, hm₂⟩ := ihn ts₁ (hm₁.sees hw)
    exact ⟨ts₂, hw.cur ▸ perform_expressionStatement hp₁ hp₂, hm₁.trans hm₂⟩
  | @block w w' ss h ih =>
    intro ts hw
    obtain ⟨ts', hp, hm⟩ := ih ts.tail hw.next
    obtain ⟨rfl, rfl⟩ := Prod.mk.inj hp
    exact ⟨_, hw.cur ▸ perform_block_eq ts, (Moves.next w ts).trans hm⟩
  | @expressionNot p w h => exact fun ts hw => ⟨ts, perform_expression_none (hw.cur ▸ h), .refl w ts⟩
  | @expression p w w₁ w₂ o left e h ho he iho ihe =>
    intro ts hw
    obtain ⟨ts₁, hp₁, hm₁⟩ := iho ts hw
    obtain ⟨ts₂, hp₂, hm₂⟩ := ihe ts₁ (hm₁.sees hw)
    exact ⟨ts₂, (perform_expression (hw.cur ▸ h) hp₁).trans hp₂, hm₁.trans hm₂⟩
  | @operatorsEnd p left w h => exact fun ts hw => ⟨ts, perform_operators_end (hw.peek ▸ h), .refl w ts⟩
  | @operators p left w w₁ w₂ e e' h ho he iho ihe =>
    intro ts hw
    obtain ⟨ts₁, hp₁, hm₁⟩ := iho ts.tail hw.next
    have hm₁' := (Moves.next w ts).trans hm₁
    obtain ⟨ts₂, hp₂, hm₂⟩ := ihe ts₁ (hm₁'.sees hw)
    exact ⟨ts₂, (perform_operators (hw.peek ▸ h) hp₁).trans hp₂, hm₁'.trans hm₂⟩
  | @operation left w w' right h ih =>
    intro ts hw
    obtain ⟨ts', hp, hm⟩ := ih ts.tail hw.next
    refine ⟨ts', ?_, (Moves.next w ts).trans hm⟩
    rw [hw.cur] at hp ⊢
    change Parser.expression _ (Parser.next ts) = _ at hp
    show Parser.operation left ts = _
    rw [Parser.operation, hp]
  | @name w => exact fun ts hw => ⟨ts, hw.cur ▸ rfl, .refl w ts⟩
  | @number w => exact fun ts hw => ⟨ts, hw.cur ▸ rfl, .refl w ts⟩
  | @parenthesised w w₁ w₂ e b he hb ihe ihb =>
    intro ts hw
    obtain ⟨ts₁, hp₁, hm₁⟩ := ihe ts.tail hw.next
    have hm₁' := (Moves.next w ts).trans hm₁
    obtain ⟨ts₂, hp₂, hm₂⟩ := ihb ts₁ (hm₁'.sees hw)
    exact ⟨ts₂, perform_parenthesised hp₁ hp₂, hm₁'.trans hm₂⟩
  | @clauseNot w w₁ hl ih =>
    intro ts hw
    obtain ⟨hk, hm⟩ := ih.expect_false hw
    exact ⟨ts, perform_clause_none hk, hm⟩
  | @clauseOpen w w₁ w₂ w₃ e hl he hr ihl ihe ihr =>
    intro ts hw
    obtain ⟨hk, ts₂, hp₂, hm₂⟩ := ihl.marked ihe hw
    obtain ⟨hk₃, hm₃⟩ := ihr.expect_false (hm₂.sees hw)
    refine ⟨ts₂, ?_, hm₂.trans hm₃⟩
    rw [perform_clause hk hp₂, hk₃]
    rfl
  | @clauseBare w w₁ w₂ w₃ w₄ e hl he hr hb ihl ihe ihr ihb =>
    intro ts hw
    obtain ⟨hk, ts₂, hp₂, hm₂⟩ := ihl.marked ihe hw
    obtain ⟨hk₃, hm₃⟩ := ihr.expect_true (hm₂.sees hw)
    have hm₃' := hm₂.trans hm₃
    obtain ⟨hk₄, hm₄⟩ := ihb.expect_false (hm₃'.sees hw)
    refine ⟨ts₂.tail, ?_, hm₃'.trans hm₄⟩
    rw [perform_clause hk hp₂, hk₃, hk₄]
    rfl
  | @clause w w₁ w₂ w₃ w₄ w₅ e body hl he hr hb hs ihl ihe ihr ihb ihs =>
    intro ts hw
    obtain ⟨hk, ts₂, hp₂, hm₂⟩ := ihl.marked ihe hw
    obtain ⟨hk₃, hm₃⟩ := ihr.expect_true (hm₂.sees hw)
    have hm₃' := hm₂.trans hm₃
    obtain ⟨hk₄, ts₅, hp₅, hm₅⟩ := ihb.braced ihs (hm₃'.sees hw)
    refine ⟨ts₅, ?_, hm₃'.trans hm₅⟩
    rw [perform_clause hk hp₂, hk₃, hk₄, hp₅]
    rfl
  | @choiceNot w w₁ h ih =>
    intro ts hw
    obtain ⟨ts₁, hp₁, hm₁⟩ := ih ts hw
    exact ⟨ts₁, perform_choice_none hp₁, hm₁⟩
  | @choice w w₁ w₂ e yes h hx ih ihx =>
    intro ts hw
    obtain ⟨ts₁, hp₁, hm₁⟩ := ih ts hw
    obtain ⟨hk₂, hm₂⟩ := ihx.expect_false (hm₁.sees hw)
    refine ⟨ts₁, ?_, hm₁.trans hm₂⟩
    rw [perform_choice hp₁, hk₂, hw.cur]
    rfl
  | @choiceElseNot w w₁ w₂ w₃ e yes h hx hb ih ihx ihb =>
    intro ts hw
    obtain ⟨ts₁, hp₁, hm₁⟩ := ih ts hw
    obtain ⟨hk₂, hm₂⟩ := ihx.expect_true (hm₁.sees hw)
    have hm₂' := hm₁.trans hm₂
    obtain ⟨hk₃, hm₃⟩ := ihb.expect_false (hm₂'.sees hw)
    refine ⟨ts₁.tail, ?_, hm₂'.trans hm₃⟩
    rw [perform_choice hp₁, hk₂, hk₃]
    rfl
  | @choiceElse w w₁ w₂ w₃ w₄ e yes no h hx hb hs ih ihx ihb ihs =>
    intro ts hw
    obtain ⟨ts₁, hp₁, hm₁⟩ := ih ts hw
    obtain ⟨hk₂, hm₂⟩ := ihx.expect_true (hm₁.sees hw)
    have hm₂' := hm₁.trans hm₂
    obtain ⟨hk₃, ts₄, hp₄, hm₄⟩ := ihb.braced ihs (hm₂'.sees hw)
    refine ⟨ts₄, ?_, hm₂'.trans hm₄⟩
    rw [perform_choice hp₁, hk₂, hk₃, hp₄, hw.cur]
    rfl
  | @loopNot w w₁ h ih =>
    intro ts hw
    obtain ⟨ts₁, hp₁, hm₁⟩ := ih ts hw
    exact ⟨ts₁, perform_loop_none hp₁, hm₁⟩
  | @loop w w₁ e body h ih =>
    intro ts hw
    obtain ⟨ts₁, hp₁, hm₁⟩ := ih ts hw
    exact ⟨ts₁, hw.cur ▸ perform_loop hp₁, hm₁⟩

/-! ## Sequences of calls -/

def Call.after : List Call → Parser → Parser
  | [], p => p
  | c :: calls, p => Call.after calls (c.perform p).2

/-- The calls, made one after the other at the first window, all return and leave the second one. -/
def Runs : List Call → Window → Window → Prop
  | [], w, w' => w' = w
  | c :: calls, w, w' => ∃ r w₁, Does c w r w₁ ∧ Runs calls w₁ w'

theorem Call.after_concat (c : Call) : ∀ (calls : List Call) (p : Parser),
    Call.after (calls ++ [c]) p = (c.perform (Call.after calls p)).2
  | [], _ => rfl
  | d :: calls, p => Call.after_concat c calls (d.perform p).2

theorem unended_start (s : String) : Unended (Parser.start s) := by
  intro t ht hk
  have hterminal : Strict.IsTerminal t := spelt_lexemes s.toList t ht (by rw [hk]; decide)
  rw [Strict.IsTerminal, hk] at hterminal
  exact hterminal

/-- The window on what is left of a text. -/
def windowOn (s : String) (p : Parser) : Window := (Window.start s).pass ((Parser.start s).length - p.length)

theorem windowOn_drop (s : String) (i : Nat) : windowOn s ((Parser.start s).drop i) = (Window.start s).pass i := by
  rw [windowOn, List.length_drop]
  by_cases hi : i ≤ (Parser.start s).length
  · rw [Nat.sub_sub_self hi]
  · have hlen : (Parser.start s).length ≤ i := by omega
    rw [Nat.sub_eq_zero_of_le hlen, Nat.sub_zero]
    exact (Window.pass_of_length_le hlen).symm

theorem windowOn_sees (s : String) (i : Nat) :
    (windowOn s ((Parser.start s).drop i)).Sees ((Parser.start s).drop i) := by
  rw [windowOn_drop]
  exact Moves.sees ⟨i, rfl, rfl⟩ ⟨Window.start_shows s, unended_start s⟩

variable {s : String} {p : Parser}

/-- At a place of the text a call returns in one way only: that of the step of the parser, which moves on. -/
theorem does_iff_perform (hp : ∃ i, p = (Parser.start s).drop i) (c : Call) :
    (∃ i, (c.perform p).2 = p.drop i) ∧
      ∀ r w, Does c (windowOn s p) r w ↔ r = (c.perform p).1 ∧ w = windowOn s (c.perform p).2 := by
  obtain ⟨i, rfl⟩ := hp
  have hw := windowOn_sees s i
  have hdoes : ∀ {r w}, Does c (windowOn s ((Parser.start s).drop i)) r w →
      ∃ k, c.perform ((Parser.start s).drop i) = (r, ((Parser.start s).drop i).drop k) ∧
        w = windowOn s (((Parser.start s).drop i).drop k) := by
    intro r w h
    obtain ⟨ts', hr, k, rfl, rfl⟩ := h.agrees _ hw
    refine ⟨k, hr, ?_⟩
    rw [windowOn_drop, Window.pass_pass, List.drop_drop, windowOn_drop]
  obtain ⟨r₀, w₀, -, h₀, -⟩ := returns c hw.toShows
  obtain ⟨k, hr₀, hw₀⟩ := hdoes h₀
  refine ⟨⟨k, by rw [hr₀]⟩, fun r w => ⟨fun h => ?_, ?_⟩⟩
  · obtain ⟨j, hr, hw⟩ := hdoes h
    rw [hr]
    exact ⟨rfl, hw⟩
  · rintro ⟨rfl, rfl⟩
    rw [hr₀]
    exact hw₀ ▸ h₀

theorem Call.after_eq_drop (s : String) : ∀ (calls : List Call) {p : Parser},
    (∃ i, p = (Parser.start s).drop i) → ∃ i, Call.after calls p = (Parser.start s).drop i
  | [], _, hp => hp
  | c :: calls, p, hp => by
    obtain ⟨k, hk⟩ := (does_iff_perform hp c).1
    obtain ⟨i, rfl⟩ := hp
    exact Call.after_eq_drop s calls ⟨i + k, by rw [hk, List.drop_drop]⟩

theorem runs_iff_after (s : String) : ∀ (calls : List Call) {p : Parser}, (∃ i, p = (Parser.start s).drop i) →
    ∀ w, Runs calls (windowOn s p) w ↔ w = windowOn s (Call.after calls p)
  | [], _, _, w => Iff.rfl
  | c :: calls, p, hp, w => by
    obtain ⟨⟨k, hk⟩, hdoes⟩ := does_iff_perform hp c
    have hnext : ∃ i, (c.perform p).2 = (Parser.start s).drop i := by
      obtain ⟨i, rfl⟩ := hp
      exact ⟨i + k, by rw [hk, List.drop_drop]⟩
    rw [Call.after, ← runs_iff_after s calls hnext w]
    constructor
    · rintro ⟨r, w₁, h, hrest⟩
      obtain ⟨-, rfl⟩ := (hdoes r w₁).1 h
      exact hrest
    · exact fun hrest => ⟨_, _, (hdoes _ _).2 ⟨rfl, rfl⟩, hrest⟩

/-- Every sequence of calls returns, in one way only. Behind it the two lexemes in view are neighbours in the text,
and each further call returns what the step of the parser returns and never moves back; a whole program ends at the
end of the text. -/
theorem calls_return (s : String) :
    ∃ index : List Call → Nat, index [] = 0 ∧ ∀ calls : List Call,
      (∀ w, Runs calls (.start s) w ↔ w = (Window.start s).pass (index calls)) ∧
      ((Window.start s).pass (index calls)).cur = lexemeAt s (index calls) ∧
      ((Window.start s).pass (index calls)).peek = lexemeAt s (index calls + 1) ∧
      cur (Call.after calls (Parser.start s)) = lexemeAt s (index calls) ∧
      peek (Call.after calls (Parser.start s)) = lexemeAt s (index calls + 1) ∧
      ∀ c : Call, index calls ≤ index (calls ++ [c]) ∧
        (∀ r w, Does c ((Window.start s).pass (index calls)) r w ↔
          r = (c.perform (Call.after calls (Parser.start s))).1 ∧
            w = (Window.start s).pass (index (calls ++ [c]))) ∧
        (c = .program → lexemeAt s (index (calls ++ [c])) = .eof) := by
  let index calls := (Parser.start s).length - (Call.after calls (Parser.start s)).length
  have hplace : ∀ calls, ∃ i, Call.after calls (Parser.start s) = (Parser.start s).drop i := fun calls =>
    Call.after_eq_drop s calls ⟨0, rfl⟩
  have hstart : windowOn s (Parser.start s) = Window.start s := windowOn_drop s 0
  refine ⟨index, Nat.sub_self _, fun calls => ?_⟩
  have hshows := Window.pass_shows s (index calls)
  have hsees : ((Window.start s).pass (index calls)).Sees (Call.after calls (Parser.start s)) := by
    obtain ⟨i, hi⟩ := hplace calls
    show (windowOn s (Call.after calls (Parser.start s))).Sees _
    rw [hi]
    exact windowOn_sees s i
  refine ⟨fun w => ?_, hshows.1, hshows.2, hsees.cur.symm.trans hshows.1, hsees.peek.symm.trans hshows.2,
    fun c => ?_⟩
  · have hruns := runs_iff_after s calls (p := Parser.start s) ⟨0, rfl⟩ w
    rw [hstart] at hruns
    exact hruns
  · obtain ⟨⟨k, hk⟩, hdoes⟩ := does_iff_perform (hplace calls) c
    have hnext : Call.after (calls ++ [c]) (Parser.start s) = (c.perform (Call.after calls (Parser.start s))).2 :=
      Call.after_concat c calls _
    refine ⟨?_, fun r w => ?_, ?_⟩
    · show _ - _ ≤ _ - _
      rw [hnext, hk, List.length_drop]
      omega
    · show Does c (windowOn s _) r w ↔ _ ∧ w = windowOn s (Call.after (calls ++ [c]) (Parser.start s))
      rw [hnext]
      exact hdoes r w
    · rintro rfl
      have hend : index (calls ++ [.program]) = (Parser.start s).length := by
        show _ - _ = _
        rw [hnext]
        rfl
      have hnone : (lexemes s.toList)[(Parser.start s).length]? = none := List.getElem?_eq_none (Nat.le_refl _)
      rw [hend, lexemeAt, List.getD_eq_getElem?_getD, hnone]
      rfl

end LineLang.Tolerant
