import Mathlib
import LineLang.Proofs.MaximalMunch
import LineLang.Proofs.TolerantParser

/-!
# Faults stay on their lines

However malformed a line is, the tolerant parser is back at a statement when it comes to the next one, as long as no
brace is open and that line does not begin with an operator or with a closing parenthesis.

* `Break nl more` : the line feed `nl` with such a line behind it;
* `Unbraced ts` : no brace is opened among `ts`;
* `expression_break` : up to the line feed an expression is read as at the end of a text;
* `Resumes ts more` : so is a statement, and the parser then goes on with the same line or begins the next one;
* `solid_programOf_break` : the statements of the lines, apart from blank ones.
-/

namespace LineLang

namespace Tolerant

/-- A line feed, and behind it a line that does not go on with an expression. -/
structure Break (nl : Lexeme) (more : List Lexeme) : Prop where
  newline : nl.kind = .newline
  operator : (cur more).kind.strength? = none
  paren : (cur more).kind ≠ .rparen

def Unbraced (ts : List Lexeme) : Prop := ∀ t ∈ ts, t.kind ≠ .lbrace

variable {nl : Lexeme} {more : List Lexeme}

theorem Unbraced.drop {ts : List Lexeme} (h : Unbraced ts) (k : Nat) : Unbraced (ts.drop k) :=
  fun t ht => h t (List.mem_of_mem_drop ht)

theorem Unbraced.tail {t : Lexeme} {ts : List Lexeme} (h : Unbraced (t :: ts)) : Unbraced ts := h.drop 1

/-! ## Expressions -/

theorem peekIs_rparen_break (hb : Break nl more) (ts : List Lexeme) :
    peekIs .rparen (ts ++ nl :: more) = peekIs .rparen ts := by
  match ts with
  | [] => exact decide_eq_false hb.paren
  | [t] =>
    refine decide_eq_false fun h => ?_
    cases hb.newline.symm.trans h
  | t :: u :: ts => rfl

/-- Two lexemes are left if a closing parenthesis comes next. -/
theorem length_of_peekIs {ts : List Lexeme} (h : peekIs .rparen ts = true) : 2 ≤ ts.length := by
  match ts with
  | [] => cases h
  | [t] => cases h
  | t :: u :: ts => simp

theorem braces_unbraced {ts : List Lexeme} (h : Unbraced ts) : braces ts = none := by
  unfold braces
  split
  · next t u rest => rw [if_neg (h u (by simp))]
  · rfl

/-- A brace in the next line does not begin a block behind a lexeme of this one. -/
theorem braces_break (hb : Break nl more) {ts : List Lexeme} (h : Unbraced ts) (hlen : 0 < ts.length) :
    braces (ts ++ nl :: more) = none := by
  match ts with
  | [t] => rw [List.singleton_append, braces, if_neg (by rw [hb.newline]; decide)]
  | t :: u :: ts => rw [List.cons_append, List.cons_append, braces, if_neg (h u (by simp))]

mutual

/-- Up to the line feed, an expression is read as at the end of a text. -/
theorem expression_break (hb : Break nl more) (p : Int) (ts : List Lexeme) (h : Unbraced ts) :
    ∃ e, ∃ k ≤ ts.length, expression p (ts ++ nl :: more) = (e, k) ∧ expression p ts = (e, k) := by
  match ts with
  | [] => exact ⟨.missing, 0, Nat.le_refl 0, ReadsStatement.expression_newline p hb.newline more, by rw [expression]⟩
  | t :: rest =>
    rw [List.cons_append, expression, expression]
    rcases operand_break hb t rest h with ⟨ho, ho'⟩ | ⟨left, k, hk, ho, ho'⟩
    · rw [ho, ho']
      exact ⟨.missing, 0, Nat.zero_le _, rfl, rfl⟩
    · obtain ⟨e, j, hj, hops, hops'⟩ := operators_break hb p left ((t :: rest).drop k) (h.drop k)
      have hle : k ≤ (t :: rest).length := hk
      rw [ho, ho']
      dsimp only
      rw [← List.cons_append, List.drop_append_of_le_length hle, hops, hops']
      rw [List.length_drop] at hj
      exact ⟨e, k + j, by omega, rfl, rfl⟩
termination_by 5 * ts.length + 1

theorem operand_break (hb : Break nl more) (t : Lexeme) (rest : List Lexeme) (h : Unbraced (t :: rest)) :
    (operand t (rest ++ nl :: more) = none ∧ operand t rest = none) ∨ ∃ e, ∃ k ≤ rest.length + 1,
      operand t (rest ++ nl :: more) = some (e, k) ∧ operand t rest = some (e, k) := by
  rw [operand, operand]
  split
  · exact .inr ⟨_, 0, Nat.zero_le _, rfl, rfl⟩
  · exact .inr ⟨_, 0, Nat.zero_le _, rfl, rfl⟩
  · obtain ⟨e, k, hk, hg, hg'⟩ := group_break hb rest h.tail
    exact .inr ⟨e, k, hk, congrArg some hg, congrArg some hg'⟩
  · obtain ⟨k, hk, hc, hc'⟩ := clause_break hb rest h.tail
    exact .inr ⟨.missing, k, hk, by rw [choice, hc], by rw [choice, hc']⟩
  · obtain ⟨k, hk, hc, hc'⟩ := clause_break hb rest h.tail
    exact .inr ⟨.missing, k, hk, by rw [loop, hc], by rw [loop, hc']⟩
  · exact .inl ⟨rfl, rfl⟩
termination_by 5 * rest.length + 4

theorem operators_break (hb : Break nl more) (p : Int) (left : Node) (ts : List Lexeme) (h : Unbraced ts) :
    ∃ e, ∃ k ≤ ts.length, operators p left (ts ++ nl :: more) = (e, k) ∧ operators p left ts = (e, k) := by
  match ts with
  | [] =>
    -- the line feed is the current lexeme, and the one behind it is no operator
    refine ⟨left, 0, Nat.le_refl 0, ?_, by simp [operators]⟩
    rw [List.nil_append, operators_cons, behind_of_le left (by simp [hb.operator])]
  | [t] =>
    refine ⟨left, 0, Nat.zero_le _, ?_, by simp [operators]⟩
    rw [List.singleton_append, operators_cons, behind_of_le left (by simp [cur, hb.newline, Kind.strength?])]
  | t :: op :: rest =>
    rw [List.cons_append, List.cons_append, operators, operators]
    split
    · next q hq =>
      split
      · obtain ⟨right, k, hk, he, he'⟩ := expression_break hb q rest h.tail.tail
        obtain ⟨e, j, hj, hops, hops'⟩ :=
          operators_break hb p (.binary op.token left (.str op.text) right) (rest.drop k) (h.tail.tail.drop k)
        rw [he, he']
        dsimp only
        rw [List.drop_append_of_le_length hk, hops, hops']
        rw [List.length_drop] at hj
        exact ⟨e, 2 + k + j, by simp only [List.length_cons]; omega, rfl, rfl⟩
      · exact ⟨left, 0, Nat.zero_le _, rfl, rfl⟩
    · exact ⟨left, 0, Nat.zero_le _, rfl, rfl⟩
termination_by 5 * ts.length

theorem group_break (hb : Break nl more) (rest : List Lexeme) (h : Unbraced rest) :
    ∃ e, ∃ k ≤ rest.length + 1, group (rest ++ nl :: more) = (e, k) ∧ group rest = (e, k) := by
  obtain ⟨e, k, hk, he, he'⟩ := expression_break hb Kind.lowest rest h
  rw [group, group, he, he']
  dsimp only
  rw [List.drop_append_of_le_length hk, peekIs_rparen_break hb]
  split
  · next hp =>
    have hlen := length_of_peekIs hp
    rw [List.length_drop] at hlen
    exact ⟨e, k + 2, by omega, rfl, rfl⟩
  · exact ⟨.missing, k + 1, Nat.succ_le_succ hk, rfl, rfl⟩
termination_by 5 * rest.length + 2

/-- Without a brace, there is no condition with a block. -/
theorem clause_break (hb : Break nl more) (rest : List Lexeme) (h : Unbraced rest) :
    ∃ k ≤ rest.length + 1, clause (rest ++ nl :: more) = (none, k) ∧ clause rest = (none, k) := by
  match rest with
  | [] =>
    refine ⟨0, Nat.zero_le _, ?_, by rw [clause]⟩
    rw [List.nil_append, clause, if_neg (by rw [hb.newline]; decide)]
  | t :: rest =>
    obtain ⟨c, k, hk, he, he'⟩ := expression_break hb Kind.lowest rest h.tail
    rw [List.cons_append, clause, clause, he, he']
    dsimp only
    rw [List.drop_append_of_le_length hk, peekIs_rparen_break hb]
    split
    · split
      · next hp =>
        have hlen := length_of_peekIs hp
        rw [List.length_drop] at hlen
        -- the closing parenthesis is still in front of the line feed
        rw [List.drop_append_of_le_length (by omega), braces_break hb (h.tail.drop _) (by simp; omega),
          braces_unbraced (h.tail.drop _)]
        exact ⟨k + 3, by simp only [List.length_cons]; omega, rfl, rfl⟩
      · exact ⟨k + 2, by simp only [List.length_cons]; omega, rfl, rfl⟩
    · exact ⟨0, Nat.zero_le _, rfl, rfl⟩
termination_by 5 * rest.length + 2

end

/-! ## Statements -/

/-- What is left behind a statement: `left` at the end of a text, `left'` in front of a line break. The statement is
within the line, or with the line feed it has passed the last of it and perhaps a line feed more. -/
inductive Resumes (nl : Lexeme) (more : List Lexeme) : (left left' : List Lexeme) → Prop where
  | within (left : List Lexeme) : Resumes nl more left (left ++ nl :: more)
  | next : Resumes nl more [] more
  | blank {x : Lexeme} {xs : List Lexeme} (h : more = x :: xs) (hx : x.kind = .newline) : Resumes nl more [] xs

theorem resumes_lineEnd (hb : Break nl more) (ts : List Lexeme) :
    Resumes nl more (ts.drop (1 + lineEnd ts)) ((ts ++ nl :: more).drop (1 + lineEnd (ts ++ nl :: more))) := by
  match ts with
  | [] =>
    by_cases hn : (cur more).kind = .newline
    · cases more with
      | nil => cases hn
      | cons x xs =>
        rw [List.nil_append, lineEnd, lineEnd, if_pos (peekIs_cons.2 hn)]
        exact .blank rfl hn
    · rw [List.nil_append, lineEnd, lineEnd, if_neg (mt peekIs_cons.1 hn)]
      exact .next
  | [t] =>
    rw [List.singleton_append, lineEnd, lineEnd, if_pos (peekIs_of_kind hb.newline)]
    exact .next
  | t :: u :: ts =>
    have hle : 1 + lineEnd (t :: u :: ts) ≤ (t :: u :: ts).length := by
      rw [lineEnd]
      split <;> simp
    have hsame : lineEnd (t :: u :: ts ++ nl :: more) = lineEnd (t :: u :: ts) := rfl
    rw [hsame, List.drop_append_of_le_length hle]
    exact .within _

theorem resumes_untilNewline (hb : Break nl more) (ts : List Lexeme) :
    Resumes nl more (ts.drop (1 + untilNewline ts))
      ((ts ++ nl :: more).drop (1 + untilNewline (ts ++ nl :: more))) := by
  induction ts with
  | nil =>
    have h : untilNewline (nl :: more) = 0 := by simp [untilNewline, hb.newline]
    rw [List.nil_append, h]
    exact .next
  | cons t ts ih =>
    by_cases ht : t.kind = .newline
    · have h : ∀ us, untilNewline (t :: us) = 0 := fun us => by simp [untilNewline, ht]
      rw [List.cons_append, h, h]
      exact .within ts
    · have h : ∀ us, untilNewline (t :: us) = untilNewline us + 1 := fun us => by simp [untilNewline, ht]
      rw [List.cons_append, h, h, ← Nat.add_assoc, ← Nat.add_assoc]
      exact ih

/-- Up to the line feed, a statement is read as at the end of a text. -/
theorem statement_break (hb : Break nl more) (t : Lexeme) (rest : List Lexeme) (h : Unbraced (t :: rest)) :
    ∃ s k k', statement (t :: rest) = (s, k) ∧ statement (t :: (rest ++ nl :: more)) = (s, k') ∧
      Resumes nl more (rest.drop k) ((rest ++ nl :: more).drop k') := by
  have hassign : (cur (rest ++ nl :: more)).kind = .assign ↔ (cur rest).kind = .assign := by
    cases rest with
    | nil => simp [cur, hb.newline, Lexeme.eof]
    | cons a rest => exact Iff.rfl
  rw [statement, statement]
  simp only [hassign]
  split
  · next hta =>
    obtain ⟨-, ha⟩ := Bool.and_eq_true_iff.1 hta
    cases rest with
    | nil => cases of_decide_eq_true ha
    | cons a rest =>
      obtain ⟨e, k, hk, he, he'⟩ := expression_break hb Kind.lowest rest h.tail.tail
      have hdrop : ∀ us n, (a :: us).drop (2 + k + n) = (us.drop k).drop (1 + n) := fun us n => by
        rw [List.drop_drop, show 2 + k + n = k + (1 + n) + 1 by omega, List.drop_succ_cons]
      rw [List.cons_append, List.tail_cons, List.tail_cons, he, he']
      refine ⟨_, _, _, rfl, rfl, ?_⟩
      rw [hdrop, hdrop, List.drop_append_of_le_length hk]
      exact resumes_lineEnd hb (rest.drop k)
  split
  · obtain ⟨e, k, hk, he, he'⟩ := expression_break hb Kind.lowest rest h.tail
    have hdrop : ∀ (us : List Lexeme) n, us.drop (1 + k + n) = (us.drop k).drop (1 + n) := fun us n => by
      rw [List.drop_drop, show 1 + k + n = k + (1 + n) by omega]
    rw [he, he']
    refine ⟨_, _, _, rfl, rfl, ?_⟩
    rw [hdrop, hdrop, List.drop_append_of_le_length hk]
    exact resumes_untilNewline hb (rest.drop k)
  · obtain ⟨e, k, hk, he, he'⟩ := expression_break hb Kind.lowest (t :: rest) h
    have hdrop : ∀ us n, us.drop (k + n) = ((t :: us).drop k).drop (1 + n) := fun us n => by
      rw [List.drop_drop, show k + (1 + n) = k + n + 1 by omega, List.drop_succ_cons]
    rw [← List.cons_append, he, he']
    refine ⟨_, _, _, rfl, rfl, ?_⟩
    rw [hdrop, hdrop, ← List.cons_append, List.drop_append_of_le_length hk]
    exact resumes_lineEnd hb ((t :: rest).drop k)

/-! ## Programs -/

theorem programOf_cons {t : Lexeme} {rest : List Lexeme} {s : Node} {k : Nat} (h : statement (t :: rest) = (s, k)) :
    programOf (t :: rest) = s :: programOf (rest.drop k) := by
  rw [programOf, h]

/-- A blank line leaves blank statements only. -/
theorem solid_programOf_newline (h : nl.kind = .newline) (ts : List Lexeme) :
    Node.solid (programOf (nl :: ts)) = Node.solid (programOf ts) := by
  induction ts generalizing nl with
  | nil =>
    rw [programOf_cons (ReadsStatement.statement_newline h []), Node.solid_cons, if_pos (Node.isBlank_expr_missing _)]
    rfl
  | cons t ts ih =>
    rw [programOf_cons (ReadsStatement.statement_newline h (t :: ts)), Node.solid_cons,
      if_pos (Node.isBlank_expr_missing _), lineEnd]
    split
    · next ht => exact (ih (peekIs_cons.1 ht)).symm
    · rfl

theorem Resumes.solid {left left' : List Lexeme} (hr : Resumes nl more left left')
    (h : Node.solid (programOf (left ++ nl :: more)) = Node.solid (programOf left) ++ Node.solid (programOf more)) :
    Node.solid (programOf left') = Node.solid (programOf left) ++ Node.solid (programOf more) := by
  cases hr with
  | within => exact h
  | next =>
    rw [programOf]
    rfl
  | blank hm hx =>
    rw [hm, solid_programOf_newline hx, programOf]
    rfl

/-- The statements in front of a line break and those behind it, apart from blank ones. -/
theorem solid_programOf_break (hb : Break nl more) (ts : List Lexeme) (h : Unbraced ts) :
    Node.solid (programOf (ts ++ nl :: more)) = Node.solid (programOf ts) ++ Node.solid (programOf more) := by
  match ts with
  | [] =>
    rw [List.nil_append, solid_programOf_newline hb.newline, programOf]
    rfl
  | t :: rest =>
    obtain ⟨s, k, k', hs, hs', hr⟩ := statement_break hb t rest h
    have hrest := hr.solid (solid_programOf_break hb (rest.drop k) (h.tail.drop k))
    rw [List.cons_append, programOf_cons hs, programOf_cons hs', Node.solid_cons, Node.solid_cons, hrest]
    split <;> rfl
termination_by ts.length
decreasing_by
  rw [List.length_drop, List.length_cons]
  omega

theorem unbraced_lexemes {cs : List Char} (h0 : nul ∉ cs) (h : '\x7b' ∉ cs) : Unbraced (lexemes cs) := by
  intro t ht hk
  have htext : t.text.toList = ['\x7b'] := by
    have hterm : Strict.IsTerminal t := spelt_lexemes cs t ht (by rw [hk]; decide)
    rwa [Strict.IsTerminal, hk] at hterm
  exact h (subset_of_mem_lexemes h0 ht '\x7b' (by rw [htext]; exact List.mem_cons_self))

end Tolerant

theorem lexemes_lines {s₁ : String} (h0 : nul ∉ s₁.toList) (s₂ : String) :
    lexemes (s₁ ++ "\n" ++ s₂).toList = lexemes s₁.toList ++ ⟨.newline, "\n"⟩ :: lexemes s₂.toList := by
  have htext : (s₁ ++ "\n" ++ s₂).toList = s₁.toList ++ '\n' :: s₂.toList := by simp
  rw [htext, lexemes_append h0 breaks_newline, Strict.lexemes_newline]

open Tolerant in
/-- Let a text open no brace and have no NUL, and let the text behind it begin neither with an operator nor with a
closing parenthesis. However malformed the first one is, put on lines of their own the two are read as by themselves, up
to blank statements. -/
theorem parse_lines_apart {s₁ s₂ : String} (hbrace : '\x7b' ∉ s₁.toList) (h0 : nul ∉ s₁.toList)
    (hop : (cur (lexemes s₂.toList)).kind.strength? = none) (hparen : (cur (lexemes s₂.toList)).kind ≠ .rparen) :
    ∃ ss₁ ss₂, (parse s₁).pruned = .root ss₁ ∧ (parse s₂).pruned = .root ss₂ ∧
      (parse (s₁ ++ "\n" ++ s₂)).pruned = .root (ss₁ ++ ss₂) := by
  refine ⟨_, _, rfl, rfl, congrArg Node.root (Node.prunedList_append ?_)⟩
  rw [lexemes_lines h0]
  exact solid_programOf_break ⟨rfl, hop, hparen⟩ _ (unbraced_lexemes h0 hbrace)

open Tolerant in
/-- An assignment without a value, a condition that is never closed, an operator without an operand, and a character
outside the language; then a line that begins with a brace. -/
theorem parse_lines_apart_malformed :
    '\x7b' ∉ "x = \nif (a + (b\nprint 1 *\n ? )".toList ∧ nul ∉ "x = \nif (a + (b\nprint 1 *\n ? )".toList ∧
    (cur (lexemes "\x7b y = 2 \x7d".toList)).kind = .lbrace ∧
    ∃ ss₁ ss₂, (parse "x = \nif (a + (b\nprint 1 *\n ? )").pruned = .root ss₁ ∧
      (parse "\x7b y = 2 \x7d").pruned = .root ss₂ ∧
      (parse ("x = \nif (a + (b\nprint 1 *\n ? )" ++ "\n" ++ "\x7b y = 2 \x7d")).pruned = .root (ss₁ ++ ss₂) := by
  have hbrace : '\x7b' ∉ "x = \nif (a + (b\nprint 1 *\n ? )".toList := by decide
  have h0 : nul ∉ "x = \nif (a + (b\nprint 1 *\n ? )".toList := by decide
  have hkind : (cur (lexemes "\x7b y = 2 \x7d".toList)).kind = .lbrace := by cbv
  refine ⟨hbrace, h0, hkind, parse_lines_apart hbrace h0 ?_ ?_⟩
  · rw [hkind]
    rfl
  · rw [hkind]
    decide

end LineLang
