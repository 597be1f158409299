import LineLang.Proofs.Calls

/-!
# Steps of the tolerant parser, call by call

The functions of the tolerant parser give a tree and count the lexemes that they pass. The lemmas here give the step
of each call in terms of the steps that it calls, on the lexemes that are left.

* `Call.perform c p` : the step of the parser `p` that belongs to the call `c`;
* `perform_expression`, `perform_operators`, `perform_clause`, … : a step in terms of others;
* `Unended ts` : no lexeme is taken for the end of the text. The loops of the steps end with the list, those of the
  calls at a lexeme of kind `eof`.
-/

namespace LineLang.Tolerant

def Call.perform : (c : Call) → Parser → c.Result × Parser
  | .next, p => ((), p.next)
  | .expect k, p => p.expect k
  | .program, p => p.program
  | .statement, p => p.statement
  | .assignment, p => p.assignment
  | .printing, p => p.printing
  | .expressionStatement, p => p.expressionStatement
  | .block, p => p.block
  | .expression q, p => p.expression q
  | .operand .name, p => p.name
  | .operand .number, p => p.number
  | .operand .parenthesised, p => p.parenthesised
  | .operand .choice, p => p.choice
  | .operand .loop, p => p.loop
  | .operation left, p => p.operation left
  | .operators q left, p => p.step (Tolerant.operators q left)
  | .clause, p => ((Tolerant.clause p.tail).1, p.drop (Tolerant.clause p.tail).2)
  | .lines true, p => ((statements p).1, p.drop (statements p).2)
  | .lines false, p => (programOf p, [])
  | .restOfLine, p => ((), p.drop (untilNewline p))

section Steps

variable {ts ts₁ ts₂ : Parser} {p : Int} {e left : Node} {b : Bool}

theorem drop_two_add (t u : Lexeme) (rest : List Lexeme) (k : Nat) :
    (t :: u :: rest).drop (2 + k) = rest.drop k := by
  rw [Nat.add_comm, List.drop_succ_cons, List.drop_succ_cons]

theorem perform_expect_of_eq {k : Kind} (h : (peek ts).kind = k) : (Call.expect k).perform ts = (true, ts.tail) := by
  show Parser.expect k ts = _
  rw [Parser.expect, peekIs, h]
  simp [Parser.next]

theorem perform_expect_of_ne {k : Kind} (h : (peek ts).kind ≠ k) : (Call.expect k).perform ts = (false, ts) := by
  show Parser.expect k ts = _
  simp [Parser.expect, peekIs, h]

theorem peekIs_of_perform {k : Kind} (h : (Call.expect k).perform ts = (b, ts₁)) :
    peekIs k ts = b ∧ ts₁ = if b then ts.tail else ts := by
  change Parser.expect k ts = _ at h
  unfold Parser.expect at h
  split at h
  · next hk =>
    cases h
    exact ⟨hk, rfl⟩
  · next hk =>
    cases h
    exact ⟨by simpa using hk, rfl⟩

/-! ## Expressions -/

theorem perform_expression_eq (p : Int) (ts : Parser) :
    (Call.expression p).perform ts = ((expression p ts).1, ts.drop (expression p ts).2) := rfl

theorem perform_expression_none (h : Operand.ofKind? (cur ts).kind = none) :
    (Call.expression p).perform ts = (.missing, ts) := by
  rw [perform_expression_eq]
  cases ts with
  | nil => simp [expression]
  | cons t rest =>
    have ho : operand t rest = none := by
      change Operand.ofKind? t.kind = none at h
      unfold Operand.ofKind? at h
      rw [operand]
      split at h <;> simp_all
    simp [expression, ho]

theorem operand_eq_perform {t : Lexeme} {o : Operand} (h : Operand.ofKind? t.kind = some o)
    (rest : List Lexeme) : ∃ k, operand t rest = some (((Call.operand o).perform (t :: rest)).1, k) ∧
      ((Call.operand o).perform (t :: rest)).2 = (t :: rest).drop k := by
  have ho := operand.eq_def t rest
  cases hk : t.kind <;> rw [hk] at h ho <;> cases h
  case ident => exact ⟨0, ho, rfl⟩
  case num => exact ⟨0, ho, rfl⟩
  case lparen => exact ⟨_, ho, rfl⟩
  case ifWord => exact ⟨_, ho, rfl⟩
  case whileWord => exact ⟨_, ho, rfl⟩

theorem perform_expression {o : Operand} (h : Operand.ofKind? (cur ts).kind = some o)
    (ho : (Call.operand o).perform ts = (left, ts₁)) :
    (Call.expression p).perform ts = (Call.operators p left).perform ts₁ := by
  cases ts with
  | nil => cases h
  | cons t rest =>
    change Operand.ofKind? t.kind = some o at h
    obtain ⟨k, hk, hd⟩ := operand_eq_perform h rest
    rw [ho] at hk hd
    have he : expression p (t :: rest) = ((operators p left ts₁).1, k + (operators p left ts₁).2) := by
      rw [expression, hk]
      simp only [← hd]
    rw [perform_expression_eq, he, ← List.drop_drop, ← hd]
    rfl

theorem perform_operators_eq (p : Int) (left : Node) (ts : Parser) :
    (Call.operators p left).perform ts = ((operators p left ts).1, ts.drop (operators p left ts).2) := rfl

theorem perform_operators_end
    (h : (peek ts).kind = .newline ∨ (peek ts).kind.strength ≤ p ∨ (peek ts).kind.strength? = none) :
    (Call.operators p left).perform ts = (left, ts) := by
  have ho : operators p left ts = (left, 0) := by
    rw [operators.eq_def]
    split
    · next t op rest =>
      change op.kind = .newline ∨ op.kind.strength ≤ p ∨ op.kind.strength? = none at h
      split
      · next q hq =>
        have hs : op.kind.strength = q := by rw [Kind.strength, hq]; rfl
        have hp : ¬ p < q := by
          rcases h with h | h | h
          · rw [h] at hq; cases hq
          · omega
          · rw [h] at hq; cases hq
        rw [if_neg hp]
      · rfl
    · rfl
  rw [perform_operators_eq, ho]
  rfl

theorem perform_operators
    (h : ¬ ((peek ts).kind = .newline ∨ (peek ts).kind.strength ≤ p ∨ (peek ts).kind.strength? = none))
    (ho : (Call.operation left).perform ts.tail = (e, ts₁)) :
    (Call.operators p left).perform ts = (Call.operators p e).perform ts₁ := by
  match ts with
  | [] | [_] => exact absurd (.inr (.inr rfl)) h
  | t :: op :: rest =>
    change ¬ (op.kind = .newline ∨ op.kind.strength ≤ p ∨ op.kind.strength? = none) at h
    simp only [not_or] at h
    obtain ⟨q, hq⟩ := Option.ne_none_iff_exists'.1 h.2.2
    have hs : op.kind.strength = q := by rw [Kind.strength, hq]; rfl
    have hp : p < q := by omega
    change (Node.binary op.token left (.str op.text) (expression op.kind.strength rest).1,
      rest.drop (expression op.kind.strength rest).2) = (e, ts₁) at ho
    rw [hs] at ho
    obtain ⟨rfl, rfl⟩ := Prod.mk.inj ho
    rw [perform_operators_eq, perform_operators_eq, operators.eq_def]
    simp only [hq, if_pos hp, Nat.add_assoc, drop_two_add, List.drop_drop]

theorem perform_parenthesised (he : (Call.expression Kind.lowest).perform ts.tail = (e, ts₁))
    (hb : (Call.expect .rparen).perform ts₁ = (b, ts₂)) :
    (Call.operand .parenthesised).perform ts = (if b then e else .missing, ts₂) := by
  obtain ⟨hp, rfl⟩ := peekIs_of_perform hb
  rcases hx : expression Kind.lowest ts.tail with ⟨e', k⟩
  rw [perform_expression_eq, hx] at he
  obtain ⟨rfl, rfl⟩ := Prod.mk.inj he
  have hg : group ts.tail = if b then (e', k + 2) else (.missing, k + 1) := by
    rw [group, hx]
    simp only [hp]
  show ((group ts.tail).1, ts.drop (group ts.tail).2) = _
  rw [hg]
  cases b with
  | true => simp [List.tail_drop, List.drop_tail]
  | false => simp [List.drop_tail]

/-! ## Clauses -/

theorem perform_block_eq (ts : Parser) : Call.block.perform ts =
    (.block (cur ts).token (statements ts.tail).1, ts.tail.drop (statements ts.tail).2) := rfl

theorem braces_eq_perform (h : peekIs .lbrace ts = true) :
    ∃ j, braces ts = some ((Call.block.perform ts.tail).1, j) ∧ (Call.block.perform ts.tail).2 = ts.drop j := by
  match ts with
  | [] | [_] => cases h
  | t :: u :: rest =>
    have hu : u.kind = .lbrace := by simpa [peekIs, peek] using h
    exact ⟨(statements rest).2 + 2, by rw [braces, if_pos hu]; rfl, rfl⟩

theorem braces_eq_none (h : peekIs .lbrace ts = false) : braces ts = none := by
  match ts with
  | [] | [_] => simp [braces]
  | t :: u :: rest =>
    have hu : u.kind ≠ .lbrace := by simpa [peekIs, peek] using h
    rw [braces, if_neg hu]

theorem perform_clause_none (h : peekIs .lparen ts = false) : Call.clause.perform ts = (none, ts) := by
  have hc : clause ts.tail = (none, 0) := by
    rw [clause.eq_def]
    split
    · rfl
    · next t rest ht =>
      have hk : t.kind ≠ .lparen := by simpa [peekIs, peek, ht] using h
      rw [if_neg hk]
  show ((clause ts.tail).1, ts.drop (clause ts.tail).2) = _
  rw [hc]
  rfl

/-- Behind the condition of a clause stands a closing parenthesis and then a block, or the clause is lost. -/
theorem perform_clause (h : peekIs .lparen ts = true)
    (he : (Call.expression Kind.lowest).perform ts.tail.tail = (e, ts₁)) :
    Call.clause.perform ts =
      if peekIs .rparen ts₁ then
        if peekIs .lbrace ts₁.tail then
          (some (e, (Call.block.perform ts₁.tail.tail).1), (Call.block.perform ts₁.tail.tail).2)
        else (none, ts₁.tail)
      else (none, ts₁) := by
  match ts with
  | [] | [_] => cases h
  | t :: l :: rest =>
    have hl : l.kind = .lparen := by simpa [peekIs, peek] using h
    rcases hx : expression Kind.lowest rest with ⟨e', k⟩
    change (Call.expression Kind.lowest).perform rest = _ at he
    rw [perform_expression_eq, hx] at he
    obtain ⟨rfl, rfl⟩ := Prod.mk.inj he
    show ((clause (l :: rest)).1, (t :: l :: rest).drop (clause (l :: rest)).2) = _
    rw [List.tail_drop]
    by_cases hr : peekIs .rparen (rest.drop k) = true
    · rw [if_pos hr]
      cases hb : peekIs .lbrace (rest.drop (k + 1)) with
      | true =>
        obtain ⟨j, hj, hd⟩ := braces_eq_perform hb
        have hc : clause (l :: rest) = (some (e', (Call.block.perform (rest.drop (k + 1)).tail).1), k + 1 + j + 2) := by
          rw [clause, if_pos hl]
          simp only [hx, if_pos hr, hj, Prod.mk.injEq, true_and]
          omega
        rw [hc, hd, if_pos rfl, List.drop_drop]
        rfl
      | false =>
        have hc : clause (l :: rest) = (none, k + 3) := by
          rw [clause, if_pos hl]
          simp only [hx, if_pos hr, braces_eq_none hb]
        rw [hc]
        rfl
    · have hc : clause (l :: rest) = (none, k + 2) := by
        rw [clause, if_pos hl]
        simp only [hx, if_neg hr]
      rw [hc, if_neg hr]
      rfl

theorem perform_clause_eq (ts : Parser) :
    Call.clause.perform ts = ((clause ts.tail).1, ts.drop (clause ts.tail).2) := rfl

theorem clause_pos {rest : List Lexeme} {c body : Node} {k : Nat} (h : clause rest = (some (c, body), k)) :
    0 < k := by
  rw [clause.eq_def] at h
  split at h
  · cases h
  · split at h
    · simp only at h
      split at h
      · split at h <;> cases h
        omega
      · cases h
    · cases h

theorem perform_loop_none (h : Call.clause.perform ts = (none, ts₁)) :
    (Call.operand .loop).perform ts = (.missing, ts₁) := by
  rcases hc : clause ts.tail with ⟨x, k⟩
  rw [perform_clause_eq, hc] at h
  obtain ⟨rfl, rfl⟩ := Prod.mk.inj h
  show ((loop (cur ts) ts.tail).1, ts.drop (loop (cur ts) ts.tail).2) = _
  rw [loop, hc]

theorem perform_loop {c body : Node} (h : Call.clause.perform ts = (some (c, body), ts₁)) :
    (Call.operand .loop).perform ts = (.loop (cur ts).token c body, ts₁) := by
  rcases hc : clause ts.tail with ⟨x, k⟩
  rw [perform_clause_eq, hc] at h
  obtain ⟨rfl, rfl⟩ := Prod.mk.inj h
  show ((loop (cur ts) ts.tail).1, ts.drop (loop (cur ts) ts.tail).2) = _
  rw [loop, hc]

theorem perform_choice_none (h : Call.clause.perform ts = (none, ts₁)) :
    (Call.operand .choice).perform ts = (.missing, ts₁) := by
  rcases hc : clause ts.tail with ⟨x, k⟩
  rw [perform_clause_eq, hc] at h
  obtain ⟨rfl, rfl⟩ := Prod.mk.inj h
  show ((choice (cur ts) ts.tail).1, ts.drop (choice (cur ts) ts.tail).2) = _
  rw [choice, hc]

theorem perform_choice {c yes : Node} (h : Call.clause.perform ts = (some (c, yes), ts₁)) :
    (Call.operand .choice).perform ts =
      if peekIs .elseWord ts₁ then
        if peekIs .lbrace ts₁.tail then
          (.cond (cur ts).token c yes (Call.block.perform ts₁.tail.tail).1, (Call.block.perform ts₁.tail.tail).2)
        else (.missing, ts₁.tail)
      else (.cond (cur ts).token c yes .missing, ts₁) := by
  rcases hc : clause ts.tail with ⟨x, k⟩
  rw [perform_clause_eq, hc] at h
  obtain ⟨rfl, rfl⟩ := Prod.mk.inj h
  -- A clause that is there has passed a lexeme, so the list behind the first word can be used for the whole one.
  have hpos := clause_pos hc
  have hd : ts.tail.drop (k - 1) = ts.drop k := by
    rw [List.drop_tail, Nat.sub_add_cancel hpos]
  show ((choice (cur ts) ts.tail).1, ts.drop (choice (cur ts) ts.tail).2) = _
  rw [choice, hc]
  simp only [hd, List.tail_drop, List.drop_tail]
  by_cases hx : peekIs .elseWord (ts.drop k) = true
  · rw [if_pos hx, if_pos hx]
    cases hb : peekIs .lbrace (ts.drop (k + 1)) with
    | true =>
      obtain ⟨j, hj, hd⟩ := braces_eq_perform hb
      rw [List.tail_drop] at hj hd
      rw [hj, hd, if_pos rfl, List.drop_drop]
    | false =>
      rw [braces_eq_none hb]
      rfl
  · rw [if_neg hx, if_neg hx]

/-! ## Statements -/

/-- A line feed behind the current lexeme is passed with it. -/
theorem drop_lineEnd (hn : (Call.expect .newline).perform ts = (b, ts₁)) : ts.drop (lineEnd ts) = ts₁ := by
  obtain ⟨hp, rfl⟩ := peekIs_of_perform hn
  rw [lineEnd, hp]
  cases b with
  | true => exact List.drop_one
  | false => rfl

theorem perform_expressionStatement (he : (Call.expression Kind.lowest).perform ts = (e, ts₁))
    (hn : (Call.expect .newline).perform ts₁ = (b, ts₂)) :
    Call.expressionStatement.perform ts = (.expr (cur ts).token e, ts₂) := by
  change Parser.expression Kind.lowest ts = _ at he
  show Parser.expressionStatement ts = _
  rw [Parser.expressionStatement, he]
  simp only [drop_lineEnd hn]

theorem perform_printing (he : (Call.expression Kind.lowest).perform ts.tail = (e, ts₁)) :
    Call.printing.perform ts = (.print (cur ts).token e, (Call.restOfLine.perform ts₁).2) := by
  change Parser.expression Kind.lowest ts.next = _ at he
  show Parser.printing ts = _
  rw [Parser.printing, he]
  rfl

theorem perform_assignment_none (h : peekIs .assign ts = false) : Call.assignment.perform ts = (.missing, ts) := by
  show Parser.assignment ts = _
  rw [Parser.assignment, h]
  rfl

theorem perform_assignment (h : peekIs .assign ts = true)
    (he : (Call.expression Kind.lowest).perform ts.tail.tail = (e, ts₁))
    (hn : (Call.expect .newline).perform ts₁ = (b, ts₂)) :
    Call.assignment.perform ts = (.assign (cur ts).token (.ofName (cur ts)) e, ts₂) := by
  rcases hx : expression Kind.lowest ts.tail.tail with ⟨e', k⟩
  rw [perform_expression_eq, hx] at he
  obtain ⟨rfl, rfl⟩ := Prod.mk.inj he
  have htail : ts.drop 2 = ts.tail.tail := by simp [← List.drop_one]
  show Parser.assignment ts = _
  rw [Parser.assignment, h, if_pos rfl, htail]
  simp only [hx, ← List.drop_drop, drop_lineEnd hn]

theorem perform_statement_eq (ts : Parser) :
    Call.statement.perform ts = ((statement ts).1, ts.drop (statement ts).2) := rfl

theorem perform_statement_assign (h : (cur ts).kind = .ident ∧ (peek ts).kind = .assign) :
    Call.statement.perform ts = Call.assignment.perform ts := by
  match ts with
  | [] => cases h.1
  | [_] => cases h.2
  | t :: a :: rest =>
    have ht : t.kind = .ident := h.1
    have ha : a.kind = .assign := h.2
    have hc : (t.kind = .ident && (cur (a :: rest)).kind = .assign) = true := by simp [ht, cur, ha]
    have hp : peekIs .assign (t :: a :: rest) = true := by simp [peekIs, peek, ha]
    rw [perform_statement_eq, statement, if_pos hc]
    show _ = Parser.assignment _
    rw [Parser.assignment, if_pos hp]
    simp only [List.tail_cons, List.drop_succ_cons, List.drop_zero, Nat.add_assoc, drop_two_add]
    rfl

theorem perform_statement_print (h : (cur ts).kind = .printWord) :
    Call.statement.perform ts = Call.printing.perform ts := by
  cases ts with
  | nil => cases h
  | cons t rest =>
    have ht : t.kind = .printWord := h
    have hc : ¬ (t.kind = .ident && (cur rest).kind = .assign) = true := by simp [ht]
    rw [perform_statement_eq, statement, if_neg hc, if_pos ht]
    show _ = Parser.printing _
    simp only [Nat.add_assoc, ← List.drop_drop]
    rfl

theorem perform_statement_expr (h : ¬ ((cur ts).kind = .ident ∧ (peek ts).kind = .assign))
    (hp : (cur ts).kind ≠ .printWord) :
    Call.statement.perform ts = Call.expressionStatement.perform ts := by
  cases ts with
  | nil =>
    show _ = Parser.expressionStatement _
    simp [perform_statement_eq, statement, Parser.expressionStatement, Parser.expression, Parser.step, expression,
      cur]
  | cons t rest =>
    have ht : t.kind ≠ .printWord := hp
    have hc : ¬ (t.kind = .ident && (cur rest).kind = .assign) = true := by
      simpa [cur, peek] using h
    rw [perform_statement_eq, statement, if_neg hc, if_neg ht]
    show _ = Parser.expressionStatement _
    simp only [← List.drop_drop]
    rfl

/-- A statement is always there. -/
theorem statement_isMissing (ts : List Lexeme) : (statement ts).1.isMissing = false := by
  fun_cases statement ts <;> rfl

def Unended (ts : List Lexeme) : Prop := ∀ t ∈ ts, t.kind ≠ .eof

theorem Unended.eq_nil (h : Unended ts) (hk : (cur ts).kind = .eof) : ts = [] := by
  cases ts with
  | nil => rfl
  | cons t rest => exact absurd hk (h t (List.mem_cons_self ..))

theorem perform_restOfLine_end (hu : Unended ts) (h : (cur ts).kind = .newline ∨ (cur ts).kind = .eof) :
    Call.restOfLine.perform ts = ((), ts) := by
  have hz : untilNewline ts = 0 := by
    cases ts with
    | nil => rfl
    | cons t rest =>
      have ht : t.kind = .newline := h.resolve_right (hu t (List.mem_cons_self ..))
      simp [untilNewline, ht]
  show ((), ts.drop (untilNewline ts)) = _
  rw [hz]
  rfl

theorem perform_restOfLine (h : ¬ ((cur ts).kind = .newline ∨ (cur ts).kind = .eof)) :
    Call.restOfLine.perform ts = Call.restOfLine.perform ts.tail := by
  cases ts with
  | nil => exact absurd (.inr rfl) h
  | cons t rest =>
    have ht : t.kind ≠ .newline := fun hk => h (.inl hk)
    have hs : untilNewline (t :: rest) = untilNewline rest + 1 := by simp [untilNewline, ht]
    show ((), (t :: rest).drop (untilNewline (t :: rest))) = _
    rw [hs]
    rfl

theorem perform_lines_end {braced : Bool} (hu : Unended ts)
    (h : (cur ts).kind = .eof ∨ braced = true ∧ (cur ts).kind = .rbrace) :
    (Call.lines braced).perform ts = ([], ts) := by
  rcases h with h | ⟨rfl, h⟩
  · obtain rfl := hu.eq_nil h
    cases braced with
    | true => show ((statements []).1, _) = _; simp [statements]
    | false => show (programOf [], _) = _; simp [programOf]
  · cases ts with
    | nil => cases h
    | cons t rest =>
      have ht : t.kind = .rbrace := h
      show ((statements (t :: rest)).1, (t :: rest).drop (statements (t :: rest)).2) = _
      rw [statements, if_pos ht]
      rfl

theorem perform_lines {braced : Bool} {s : Node}
    (h : ¬ ((cur ts).kind = .eof ∨ braced = true ∧ (cur ts).kind = .rbrace))
    (hs : Call.statement.perform ts = (s, ts₁)) :
    (Call.lines braced).perform ts =
      (s :: ((Call.lines braced).perform ts₁.tail).1, ((Call.lines braced).perform ts₁.tail).2) := by
  cases ts with
  | nil => exact absurd (.inl rfl) h
  | cons t rest =>
    rcases hx : statement (t :: rest) with ⟨s', k⟩
    rw [perform_statement_eq, hx] at hs
    obtain ⟨rfl, rfl⟩ := Prod.mk.inj hs
    rw [List.tail_drop]
    cases braced with
    | true =>
      have ht : t.kind ≠ .rbrace := fun hk => h (.inr ⟨rfl, hk⟩)
      show ((statements (t :: rest)).1, (t :: rest).drop (statements (t :: rest)).2) = _
      rw [statements, if_neg ht, hx]
      show (_, _) = (s' :: (statements (rest.drop k)).1, (rest.drop k).drop (statements (rest.drop k)).2)
      simp only [← List.drop_drop, List.drop_succ_cons]
    | false =>
      show (programOf (t :: rest), _) = _
      rw [programOf, hx]
      rfl

end Steps

end LineLang.Tolerant
