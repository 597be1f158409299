import LineLang.Proofs.Grammar
import LineLang.Proofs.Pruning
import LineLang.Tree.Tolerant

/-!
# What the tolerant parser reads

The tolerant parser always returns a tree. Where an expression, a block or a line is written out in full, that tree
is the expected one, and these are the rules for it.

* `Stops q rest` : no operator that binds more tightly than `q` stands at the front of `rest`;
* `behind p left rest` : the operators at the front of `rest`, with `left` as their first operand;
* `Reads q u e` : the lexemes `u` are read as the expression `e`, whose outer operators have strength `q` or more;
* `ReadsBlock`, `ReadsClause` : the same for a block, and for a condition in parentheses with its block;
* `ReadsStatement u s rest`, `ReadsLines u ss rest` : in front of `rest`, the lexemes `u` are read as the statement
  `s`, as the statements `ss`.
-/

namespace LineLang.Tolerant

open Grammar

/-- An expression with outer operators of strength `q` ends in front of `rest`. -/
def Stops (q : Int) (rest : List Lexeme) : Prop :=
  (cur rest).kind ≠ .elseWord ∧ ∀ s, (cur rest).kind.strength? = some s → s ≤ q

/-- The operators at the front of `rest` that bind more tightly than `p`, behind the operand `left`. -/
def behind (p : Int) (left : Node) (rest : List Lexeme) : Node × Nat := operators p left (.eof :: rest)

theorem Stops.mono {q q' : Int} {rest : List Lexeme} (h : Stops q rest) (hq : q ≤ q') : Stops q' rest :=
  ⟨h.1, fun s hs => Int.le_trans (h.2 s hs) hq⟩

theorem ne_else_of_strength {k : Kind} {s : Int} (h : k.strength? = some s) : k ≠ .elseWord := by
  rintro rfl
  cases h

theorem peekIs_cons {k : Kind} {t : Lexeme} {rest : List Lexeme} :
    peekIs k (t :: rest) = true ↔ (cur rest).kind = k := decide_eq_true_iff

theorem peekIs_of_kind {k : Kind} {t x : Lexeme} {rest : List Lexeme} (h : x.kind = k) :
    peekIs k (t :: x :: rest) = true := decide_eq_true h

theorem operators_cons (p : Int) (left : Node) (t : Lexeme) (rest : List Lexeme) :
    operators p left (t :: rest) = behind p left rest := by
  cases rest with
  | nil => simp [behind, operators]
  | cons op rest => rw [behind, operators, operators]

theorem behind_of_le {p : Int} {rest : List Lexeme} (left : Node)
    (h : ∀ s, (cur rest).kind.strength? = some s → s ≤ p) : behind p left rest = (left, 0) := by
  cases rest with
  | nil => simp [behind, operators]
  | cons op rest =>
    rw [behind, operators]
    split
    · next s hs =>
      have hle : s ≤ p := h s hs
      rw [if_neg (Int.not_lt.2 hle)]
    · rfl

theorem behind_operator {p s : Int} {op : Lexeme} (hop : op.kind.strength? = some s) (hp : p < s) (left : Node)
    (rest : List Lexeme) :
    behind p left (op :: rest) =
      ((operators p (.binary op.token left (.str op.text) (expression s rest).1)
          (rest.drop (expression s rest).2)).1,
        2 + (expression s rest).2 + (operators p (.binary op.token left (.str op.text) (expression s rest).1)
          (rest.drop (expression s rest).2)).2) := by
  rw [behind, operators]
  simp only [hop, if_pos hp]

/-- The last of the lexemes `u` is no line feed. -/
def Ends (u : List Lexeme) : Prop := ∃ v t, u = v ++ [t] ∧ t.kind ≠ .newline

theorem ends_singleton {t : Lexeme} (h : t.kind ≠ .newline) : Ends [t] := ⟨[], t, rfl, h⟩

theorem Ends.append {v : List Lexeme} (h : Ends v) (u : List Lexeme) : Ends (u ++ v) := by
  obtain ⟨w, t, rfl, ht⟩ := h
  exact ⟨u ++ w, t, (List.append_assoc ..).symm, ht⟩

theorem Ends.cons {u : List Lexeme} (h : Ends u) (t : Lexeme) : Ends (t :: u) := h.append [t]

theorem Ends.length_pos {u : List Lexeme} (h : Ends u) : 0 < u.length := by
  obtain ⟨v, t, rfl, -⟩ := h
  simp

/-- The lexemes from the last one of `u` on. -/
theorem Ends.drop_eq {u : List Lexeme} (h : Ends u) (rest : List Lexeme) :
    ∃ t, (u ++ rest).drop (u.length - 1) = t :: rest ∧ t.kind ≠ .newline := by
  obtain ⟨v, t, rfl, ht⟩ := h
  refine ⟨t, ?_, ht⟩
  rw [List.append_assoc, List.length_append, List.length_singleton, Nat.add_sub_cancel, List.drop_left]
  rfl

/-! ## Expressions -/

/-- The lexemes `u` are read as the expression `e`, with outer operators of strength `q` or more, wherever an
expression may stop behind them. -/
structure Reads (q : Int) (u : List Lexeme) (e : Node) : Prop where
  present : e ≠ .missing
  ends : Ends u
  reads : ∀ p < q, ∀ rest, Stops q rest →
    expression p (u ++ rest) = ((behind p e rest).1, u.length - 1 + (behind p e rest).2)

theorem expression_of_operand {t : Lexeme} {rest : List Lexeme} {e : Node} {k : Nat}
    (h : operand t rest = some (e, k)) (p : Int) :
    expression p (t :: rest) = ((operators p e ((t :: rest).drop k)).1,
      k + (operators p e ((t :: rest).drop k)).2) := by
  rw [expression, h]

namespace Reads

variable {q q' : Int} {u v : List Lexeme} {e l r : Node}

theorem mono (h : Reads q u e) (hq : q' ≤ q) : Reads q' u e :=
  ⟨h.present, h.ends, fun p hp rest hr => h.reads p (Int.lt_of_lt_of_le hp hq) rest (hr.mono hq)⟩

/-- A first operand, all of whose lexemes are passed, is read whatever the strength. -/
theorem of_operand {t : Lexeme} (present : e ≠ .missing) (ends : Ends (t :: u))
    (h : ∀ rest, (cur rest).kind ≠ .elseWord → operand t (u ++ rest) = some (e, u.length)) :
    Reads q (t :: u) e := by
  refine ⟨present, ends, fun p _ rest hr => ?_⟩
  obtain ⟨t', ht', -⟩ := ends.drop_eq rest
  rw [List.cons_append, List.length_cons, Nat.add_sub_cancel] at ht'
  rw [List.cons_append, expression_of_operand (h rest hr.1), ht', operators_cons]
  rfl

theorem name {x : Lexeme} (h : x.kind = .ident) : Reads q [x] (.ofName x) := by
  refine of_operand (by simp [Node.ofName]) (ends_singleton (by simp [h])) fun rest _ => ?_
  rw [operand, h]
  rfl

theorem number {x : Lexeme} (h : x.kind = .num) : Reads q [x] (integer x) := by
  refine of_operand (by simp [integer]) (ends_singleton (by simp [h])) fun rest _ => ?_
  rw [operand, h]
  rfl

theorem expression_eq (h : Reads q u e) {p : Int} (hp : p < q) {rest : List Lexeme}
    (hw : (cur rest).kind ≠ .elseWord) (hs : ∀ s, (cur rest).kind.strength? = some s → s ≤ p) :
    expression p (u ++ rest) = (e, u.length - 1) := by
  have hr : Stops q rest := ⟨hw, fun s hs' => Int.le_trans (hs s hs') (Int.le_of_lt hp)⟩
  rw [h.reads p hp rest hr, behind_of_le e hs]
  rfl

theorem binary {op : Lexeme} {s : Int} (hop : op.kind.strength? = some s) (hl : Reads q u l) (hq : s ≤ q)
    (hr : Reads q' v r) (hq' : s < q') : Reads s (u ++ op :: v) (.binary op.token l (.str op.text) r) := by
  refine ⟨by simp, (hr.ends.cons op).append u, fun p hp rest hrest => ?_⟩
  -- the right operand stops at the next operator, which does not bind more tightly than `s`
  have hright : expression s (v ++ rest) = (r, v.length - 1) := hr.expression_eq hq' hrest.1 hrest.2
  have hstop : Stops q (op :: (v ++ rest)) := by
    refine ⟨ne_else_of_strength hop, fun s' hs' => ?_⟩
    have hs : s = s' := Option.some.inj (hop.symm.trans hs')
    omega
  obtain ⟨t', ht', -⟩ := hr.ends.drop_eq rest
  rw [List.append_assoc, List.cons_append, hl.reads p (by omega) _ hstop, behind_operator hop hp, hright]
  simp only [ht', operators_cons, List.length_append, List.length_cons]
  have hu := hl.ends.length_pos
  have hv := hr.ends.length_pos
  congr 1
  omega

theorem group {a b : Lexeme} (ha : a.kind = .lparen) (hb : b.kind = .rparen) (h : Reads q u e)
    (hq : Kind.lowest < q) : Reads q' (a :: (u ++ [b])) e := by
  refine of_operand h.present (((ends_singleton (by simp [hb])).append u).cons a) fun rest _ => ?_
  have he : expression Kind.lowest (u ++ b :: rest) = (e, u.length - 1) :=
    h.expression_eq hq (by simp [cur, hb]) (by simp [cur, hb, Kind.strength?])
  obtain ⟨t, ht, -⟩ := h.ends.drop_eq (b :: rest)
  have hu := h.ends.length_pos
  rw [operand, ha, List.append_assoc, List.singleton_append]
  simp only [LineLang.Tolerant.group, he, ht]
  rw [if_pos (peekIs_of_kind hb), List.length_append, List.length_singleton]
  congr 2
  omega

theorem starts (h : Reads q u e) : ∃ t v, u = t :: v ∧ t.kind ∈ expressionStarts := by
  have he : expression (q - 1) (u ++ []) = (e, u.length - 1) :=
    h.expression_eq (by omega) (by simp [cur, Lexeme.eof]) (by simp [cur, Lexeme.eof, Kind.strength?])
  rw [List.append_nil] at he
  cases u with
  | nil => exact absurd h.ends.length_pos (by simp)
  | cons t v =>
    refine ⟨t, v, rfl, ?_⟩
    rw [expression, operand] at he
    cases hk : t.kind <;> simp [hk, h.present.symm] at he <;> simp [expressionStarts]

theorem ne_assign {x s : Lexeme} (h : Reads q (x :: s :: v) e) (hx : x.kind = .ident) : s.kind ≠ .assign := by
  intro hs
  have he : expression (q - 1) (x :: s :: v ++ []) = (e, v.length + 1) :=
    h.expression_eq (by omega) (by simp [cur, Lexeme.eof]) (by simp [cur, Lexeme.eof, Kind.strength?])
  have hx' : operand x (s :: v ++ []) = some (.ofName x, 0) := by
    rw [operand, hx]
  rw [List.cons_append, expression_of_operand hx', List.drop_zero, operators_cons,
    behind_of_le _ (by simp [cur, hs, Kind.strength?])] at he
  exact absurd (Prod.mk.inj he).2 (by simp)

end Reads

/-! ## Blocks, choices and loops -/

/-- Behind any lexeme, the lexemes `u` are read as the block `b`. -/
structure ReadsBlock (u : List Lexeme) (b : Node) : Prop where
  ends : Ends u
  reads : ∀ (t : Lexeme) (rest : List Lexeme), braces (t :: (u ++ rest)) = some (b, u.length)

structure ReadsClause (u : List Lexeme) (c b : Node) : Prop where
  ends : Ends u
  reads : ∀ rest : List Lexeme, clause (u ++ rest) = (some (c, b), u.length)

theorem ReadsClause.of_block {q : Int} {l r : Lexeme} {u v : List Lexeme} {c b : Node} (hl : l.kind = .lparen)
    (hr : r.kind = .rparen) (hc : Reads q u c) (hq : Kind.lowest < q) (hb : ReadsBlock v b) :
    ReadsClause (l :: (u ++ r :: v)) c b := by
  refine ⟨((hb.ends.cons r).append u).cons l, fun rest => ?_⟩
  have he : expression Kind.lowest (u ++ r :: (v ++ rest)) = (c, u.length - 1) :=
    hc.expression_eq hq (by simp [cur, hr]) (by simp [cur, hr, Kind.strength?])
  obtain ⟨t, ht, -⟩ := hc.ends.drop_eq (r :: (v ++ rest))
  have hu := hc.ends.length_pos
  have hdrop : (u ++ r :: (v ++ rest)).drop (u.length - 1 + 1) = r :: (v ++ rest) := by
    rw [Nat.sub_add_cancel hu, List.drop_left]
  rw [List.cons_append, List.append_assoc, List.cons_append, clause, if_pos hl]
  simp only [he, ht, hdrop, hb.reads r rest]
  rw [if_pos (peekIs_of_kind hr)]
  simp only [List.length_cons, List.length_append]
  congr 1
  omega

namespace Reads

variable {q : Int} {w x : Lexeme} {u v : List Lexeme} {c y n : Node}

theorem choice (hw : w.kind = .ifWord) (h : ReadsClause u c y) : Reads q (w :: u) (.cond w.token c y .missing) := by
  refine of_operand (by simp) (h.ends.cons w) fun rest hrest => ?_
  obtain ⟨t, ht, -⟩ := h.ends.drop_eq rest
  rw [operand, hw]
  simp only [LineLang.Tolerant.choice, h.reads rest, ht]
  rw [if_neg (mt peekIs_cons.1 hrest)]

theorem choiceElse (hw : w.kind = .ifWord) (hx : x.kind = .elseWord) (h : ReadsClause u c y) (hn : ReadsBlock v n) :
    Reads q (w :: (u ++ x :: v)) (.cond w.token c y n) := by
  refine of_operand (by simp) (((hn.ends.cons x).append u).cons w) fun rest _ => ?_
  obtain ⟨t, ht, -⟩ := h.ends.drop_eq (x :: (v ++ rest))
  rw [operand, hw, List.append_assoc, List.cons_append]
  simp only [LineLang.Tolerant.choice, h.reads, ht, List.drop_left, hn.reads x rest]
  rw [if_pos (peekIs_of_kind hx)]
  simp only [List.length_append, List.length_cons]
  congr 2
  omega

theorem loop (hw : w.kind = .whileWord) (h : ReadsClause u c y) : Reads q (w :: u) (.loop w.token c y) := by
  refine of_operand (by simp) (h.ends.cons w) fun rest _ => ?_
  rw [operand, hw]
  simp only [LineLang.Tolerant.loop, h.reads rest]

end Reads

/-! ## Statements -/

def ReadsStatement (u : List Lexeme) (s : Node) (rest : List Lexeme) : Prop :=
  ∃ t v k, u ++ rest = t :: v ∧ t.kind ≠ .rbrace ∧ statement (t :: v) = (s, k) ∧ v.drop k = rest

def ReadsLines (u : List Lexeme) (ss : List Node) (rest : List Lexeme) : Prop :=
  ∃ k, statements (u ++ rest) = (ss, k) ∧ (u ++ rest).drop k = rest

/-- The text or the block is over in front of `rest`. -/
def Closes (rest : List Lexeme) : Prop := rest = [] ∨ (cur rest).kind = .rbrace

/-- A statement whose line ends with the lexemes `z`: a line feed, or none where the text or the block is over. -/
def EndsLine (z rest : List Lexeme) : Prop := (∃ nl, z = [nl] ∧ nl.kind = .newline) ∨ z = [] ∧ Closes rest

theorem Closes.kind {rest : List Lexeme} (h : Closes rest) : (cur rest).kind = .eof ∨ (cur rest).kind = .rbrace := by
  rcases h with rfl | h
  · exact .inl rfl
  · exact .inr h

/-- What stands behind an expression at the end of a line. -/
theorem EndsLine.kind {z rest : List Lexeme} (h : EndsLine z rest) :
    (cur (z ++ rest)).kind = .newline ∨ (cur (z ++ rest)).kind = .eof ∨ (cur (z ++ rest)).kind = .rbrace := by
  rcases h with ⟨nl, rfl, hnl⟩ | ⟨rfl, hc⟩
  · exact .inl hnl
  · exact .inr hc.kind

theorem EndsLine.lineEnd {z rest : List Lexeme} (h : EndsLine z rest) (t : Lexeme) :
    lineEnd (t :: (z ++ rest)) = z.length := by
  rcases h with ⟨nl, rfl, hnl⟩ | ⟨rfl, hc⟩
  · simp [Tolerant.lineEnd, peekIs, peek, hnl]
  · have hk : peekIs .newline (t :: rest) = false := by
      refine decide_eq_false fun h => ?_
      rcases hc.kind with hk | hk
      · cases hk.symm.trans h
      · cases hk.symm.trans h
    simp [Tolerant.lineEnd, hk]

theorem Reads.at_line_end {q : Int} {u : List Lexeme} {e : Node} (h : Reads q u e) (hq : Kind.lowest < q)
    {z rest : List Lexeme} (hz : EndsLine z rest) :
    expression Kind.lowest (u ++ (z ++ rest)) = (e, u.length - 1) := by
  refine h.expression_eq hq ?_ ?_
  · rcases hz.kind with hk | hk | hk <;> rw [hk] <;> decide
  · rcases hz.kind with hk | hk | hk <;> rw [hk] <;> simp [Kind.strength?]

namespace ReadsStatement

variable {q : Int} {x a : Lexeme} {u z rest : List Lexeme} {e : Node}

theorem assign (hx : x.kind = .ident) (ha : a.kind = .assign) (h : Reads q u e) (hq : Kind.lowest < q)
    (hz : EndsLine z rest) : ReadsStatement (x :: a :: (u ++ z)) (.assign x.token (.ofName x) e) rest := by
  obtain ⟨t, ht, -⟩ := h.ends.drop_eq (z ++ rest)
  have hu := h.ends.length_pos
  refine ⟨x, a :: (u ++ (z ++ rest)), 1 + u.length + z.length, by simp, by simp [hx], ?_, ?_⟩
  · rw [statement, if_pos (by simp [hx, ha, cur])]
    simp only [List.tail_cons, h.at_line_end hq hz, ht, hz.lineEnd]
    congr 1
    omega
  · rw [← List.append_assoc, ← List.cons_append]
    exact List.drop_left' (by simp; omega)

theorem print (hx : x.kind = .printWord) (h : Reads q u e) (hq : Kind.lowest < q)
    (hz : EndsLine z rest) (hlast : z = [] → rest = []) : ReadsStatement (x :: (u ++ z)) (.print x.token e) rest := by
  obtain ⟨t, ht, hn⟩ := h.ends.drop_eq (z ++ rest)
  have hu := h.ends.length_pos
  have huntil : untilNewline (t :: (z ++ rest)) = 1 := by
    rcases hz with ⟨nl, rfl, hnl⟩ | ⟨rfl, -⟩
    · simp [untilNewline, hn, hnl]
    · simp [untilNewline, hn, hlast rfl]
  refine ⟨x, u ++ (z ++ rest), 1 + u.length, by simp, by simp [hx], ?_, ?_⟩
  · rw [statement, if_neg (by simp [hx]), if_pos hx]
    simp only [h.at_line_end hq hz, ht, huntil]
    congr 1
    omega
  · rcases hz with ⟨nl, rfl, -⟩ | ⟨rfl, -⟩
    · rw [← List.append_assoc]
      exact List.drop_left' (by simp; omega)
    · rw [hlast rfl]
      exact List.drop_eq_nil_of_le (by simp)

theorem expr (h : Reads q u e) (hq : Kind.lowest < q) (hz : EndsLine z rest) :
    ReadsStatement (u ++ z) (.expr (cur u).token e) rest := by
  obtain ⟨x, v, rfl, hx⟩ := h.starts
  obtain ⟨t, ht, -⟩ := h.ends.drop_eq (z ++ rest)
  have hprint : x.kind ≠ .printWord := fun hk => absurd (hk ▸ hx) (by decide)
  have hassign : ¬ (decide (x.kind = .ident) && decide ((cur (v ++ (z ++ rest))).kind = .assign)) = true := by
    intro hxa
    obtain ⟨hk, ha⟩ := Bool.and_eq_true_iff.1 hxa
    have ha := of_decide_eq_true ha
    cases v with
    | nil => rcases hz.kind with hk | hk | hk <;> cases hk.symm.trans ha
    | cons a v => exact h.ne_assign (of_decide_eq_true hk) ha
  refine ⟨x, v ++ (z ++ rest), v.length + z.length, by simp, fun hk => absurd (hk ▸ hx) (by decide), ?_, ?_⟩
  · rw [statement, if_neg hassign, if_neg hprint]
    have he := h.at_line_end hq hz
    rw [List.cons_append] at he ht
    simp only [he, ht, hz.lineEnd]
    rfl
  · rw [← List.append_assoc]
    exact List.drop_left' (by simp)

theorem expression_newline (p : Int) {nl : Lexeme} (h : nl.kind = .newline) (rest : List Lexeme) :
    expression p (nl :: rest) = (.missing, 0) := by
  rw [expression, operand, h]

/-- Behind the sign of an assignment without a value, the line feed is passed, but not one more. -/
theorem assign_missing {nl : Lexeme} (hx : x.kind = .ident) (ha : a.kind = .assign) (hnl : nl.kind = .newline)
    (hrest : (cur rest).kind ≠ .newline) :
    ReadsStatement [x, a, nl] (.assign x.token (.ofName x) .missing) rest := by
  refine ⟨x, a :: nl :: rest, 2, rfl, by simp [hx], ?_, rfl⟩
  rw [statement, if_pos (by simp [hx, ha, cur])]
  simp only [List.tail_cons, expression_newline _ hnl, List.drop_zero]
  rw [lineEnd, if_neg (mt peekIs_cons.1 hrest)]

theorem print_missing {nl : Lexeme} (hx : x.kind = .printWord) (hnl : nl.kind = .newline) :
    ReadsStatement [x, nl] (.print x.token .missing) rest := by
  refine ⟨x, nl :: rest, 1, rfl, by simp [hx], ?_, rfl⟩
  rw [statement, if_neg (by simp [hx]), if_pos hx]
  simp [expression_newline _ hnl, untilNewline, hnl]

theorem statement_newline {nl : Lexeme} (h : nl.kind = .newline) (rest : List Lexeme) :
    statement (nl :: rest) = (.expr nl.token .missing, lineEnd (nl :: rest)) := by
  rw [statement, if_neg (by simp [h]), if_neg (by simp [h])]
  simp only [expression_newline _ h, List.drop_zero, Nat.zero_add]

theorem blank {nl : Lexeme} (h : nl.kind = .newline) (hrest : (cur rest).kind ≠ .newline) :
    ReadsStatement [nl] (.expr nl.token .missing) rest := by
  refine ⟨nl, rest, 0, rfl, by simp [h], ?_, rfl⟩
  rw [statement_newline h, lineEnd, if_neg (mt peekIs_cons.1 hrest)]

theorem blank_pair {nl : Lexeme} (h : nl.kind = .newline) : ReadsStatement [nl, nl] (.expr nl.token .missing) rest := by
  refine ⟨nl, nl :: rest, 1, rfl, by simp [h], ?_, rfl⟩
  rw [statement_newline h, lineEnd, if_pos (peekIs_of_kind h)]

end ReadsStatement

/-! ## Lines -/

namespace ReadsLines

variable {u w rest : List Lexeme} {s : Node} {ss : List Node}

theorem nil (h : Closes rest) : ReadsLines [] [] rest := by
  refine ⟨0, ?_, rfl⟩
  cases rest with
  | nil => simp [statements]
  | cons t rest =>
    rcases h with h | h
    · cases h
    · have ht : t.kind = .rbrace := h
      rw [List.nil_append, statements, if_pos ht]

theorem cons (hs : ReadsStatement u s (w ++ rest)) (h : ReadsLines w ss rest) :
    ReadsLines (u ++ w) (s :: ss) rest := by
  obtain ⟨t, v, k, hu, ht, hs, hv⟩ := hs
  obtain ⟨j, hj, hd⟩ := h
  refine ⟨k + 1 + j, ?_, ?_⟩
  · rw [List.append_assoc, hu, statements, if_neg ht]
    simp only [hs, hv, hj]
  · rw [List.append_assoc, hu, Nat.add_right_comm, List.drop_succ_cons, ← List.drop_drop, hv, hd]

/-- Blank lines in front leave blank statements, one for every two of them. -/
theorem blanks {nl : Lexeme} (hnl : nl.kind = .newline) (hw : (cur (w ++ rest)).kind ≠ .newline)
    (h : ReadsLines w ss rest) :
    ∀ n, ReadsLines (List.replicate n nl ++ w) (List.replicate ((n + 1) / 2) (.expr nl.token .missing) ++ ss) rest
  | 0 => h
  | 1 => h.cons (.blank hnl hw)
  | n + 2 => by
    have hn : (n + 2 + 1) / 2 = (n + 1) / 2 + 1 := by omega
    rw [hn, List.replicate_succ (n := (n + 1) / 2), List.cons_append]
    exact (blanks hnl hw h n).cons (u := [nl, nl]) (.blank_pair hnl)

end ReadsLines

theorem ReadsBlock.of_lines {l r : Lexeme} {w : List Lexeme} {ss : List Node} (hl : l.kind = .lbrace)
    (hr : r.kind = .rbrace) (h : ∀ rest, ReadsLines w ss (r :: rest)) :
    ReadsBlock (l :: (w ++ [r])) (.block l.token ss) := by
  refine ⟨((ends_singleton (by simp [hr])).append w).cons l, fun t rest => ?_⟩
  obtain ⟨k, hk, hd⟩ := h rest
  have hlen : k = w.length := by
    have := congrArg List.length hd
    simp only [List.length_drop, List.length_append, List.length_cons] at this
    omega
  rw [List.cons_append, List.append_assoc, List.singleton_append, braces, if_pos hl]
  simp [hk, hlen]

theorem programOf_of_statements : ∀ {ts : List Lexeme} {ss : List Node} {k : Nat},
    statements ts = (ss, k) → ts.length ≤ k → programOf ts = ss
  | [], ss, k, h, _ => by
    rw [statements] at h
    rw [programOf, (Prod.mk.inj h).1]
  | t :: rest, ss, k, h, hk => by
    rw [statements] at h
    split at h
    · obtain ⟨-, rfl⟩ := Prod.mk.inj h
      exact absurd hk (by simp)
    · obtain ⟨rfl, rfl⟩ := Prod.mk.inj h
      rw [programOf]
      refine congrArg _ (programOf_of_statements rfl ?_)
      simp only [List.length_drop, List.length_cons] at hk ⊢
      omega
termination_by ts => ts.length
decreasing_by simp only [List.length_drop, List.length_cons]; omega

theorem programOf_of_lines {w : List Lexeme} {ss : List Node} (h : ReadsLines w ss []) : programOf w = ss := by
  obtain ⟨k, hk, hd⟩ := h
  rw [List.append_nil] at hk hd
  exact programOf_of_statements hk (List.drop_eq_nil_iff.1 hd)

end LineLang.Tolerant
