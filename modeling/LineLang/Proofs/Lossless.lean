import LineLang.Proofs.Balance
import LineLang.Proofs.Gaps
import LineLang.Proofs.ReadingOrder

/-!
# Reading without loss

The tolerant parser keeps no more lexemes than it passes. Where it keeps all that can be kept, it pairs the parentheses:
each opening one is passed together with a closing one, and behind an operator without a right operand one more closing
parenthesis is passed in the place of the operand.

* `size_expression`, `size_statement`, ... : no function of the parser keeps more than it passes;
* `Opens.expression_closed` : an expression of which nothing is kept is a condition that is missing;
* `balance_expression`, `balance_statement`, ... : where nothing is lost, the balance is not negative, one lemma for
  each function of the parser;
* `balance_programOf` : the same for a whole list of lexemes.
-/

namespace LineLang

open Grammar

theorem tokensList_kept {ss : List Node} (h : ∀ s ∈ ss, ∀ t ∈ s.tokens, t.kind.isKept = true) :
    ∀ t ∈ Node.tokensList ss, t.kind.isKept = true := by
  induction ss with
  | nil => simp [Node.tokensList]
  | cons s ss ih =>
    rw [List.forall_mem_cons] at h
    rw [Node.tokensList, List.forall_mem_append]
    exact ⟨h.1, ih h.2⟩

/-- The tokens of a formed tree are of the kinds that are kept. -/
theorem Formed.tokens_kept {gap : Slot → Prop} {r : Role} {n : Node} (h : Formed gap r n) :
    ∀ t ∈ n.tokens, t.kind.isKept = true := by
  induction h with
  | empty _ => simp [Node.tokens]
  | placed _ ih => exact ih
  | name _ hk => simpa [Node.ofName, Node.tokens, Lexeme.token, hk] using by decide
  | number _ hk => simpa [Tolerant.integer, Node.tokens, Lexeme.token, hk] using by decide
  | binary hk _ _ ihl ihr =>
    rw [Node.tokens, List.forall_mem_append, List.forall_mem_cons]
    exact ⟨ihl, Kind.isKept_of_isOperator ((Kind.isOperator_iff _).trans hk), ihr⟩
  | choice _ _ ihc ihy =>
    rw [Node.tokens, List.forall_mem_cons, List.forall_mem_append, List.forall_mem_append]
    exact ⟨rfl, ihc, ihy, by simp [Node.tokens]⟩
  | choiceElse _ _ _ ihc ihy ihn =>
    rw [Node.tokens, List.forall_mem_cons, List.forall_mem_append, List.forall_mem_append]
    exact ⟨rfl, ihc, ihy, ihn⟩
  | loop _ _ ihc ihb =>
    rw [Node.tokens, List.forall_mem_cons, List.forall_mem_append]
    exact ⟨rfl, ihc, ihb⟩
  | block _ ih =>
    rw [Node.tokens, List.forall_mem_cons]
    exact ⟨rfl, tokensList_kept ih⟩
  | assign _ hk _ ih =>
    rw [Node.tokens, List.forall_mem_append]
    exact ⟨by simpa [Node.ofName, Node.tokens, Lexeme.token, hk] using by decide, ih⟩
  | print _ ih =>
    rw [Node.tokens, List.forall_mem_cons]
    exact ⟨rfl, ih⟩
  | expr _ _ ih => exact ih

namespace Tolerant

theorem countP_taken (ts : List Lexeme) (k : Nat) : (taken ts k).countP (fun t => t.kind.isKept) = contents ts k := by
  induction k generalizing ts with
  | zero => rfl
  | succ k ih =>
    cases ts with
    | nil => simp [taken, total_nil content rfl]
    | cons t ts =>
      rw [taken_cons, List.countP_cons, ih, contents_succ, Nat.add_comm]
      rfl

theorem length_le_add_contents {xs ys : List Token} {ts : List Lexeme} {k : Nat}
    (hk : ∀ t ∈ xs, t.kind.isKept = true) (h : xs.Sublist (ys ++ taken ts k)) :
    xs.length ≤ ys.length + contents ts k := by
  calc xs.length = xs.countP (fun t => t.kind.isKept) := (List.countP_eq_length.2 hk).symm
    _ ≤ (ys ++ taken ts k).countP (fun t => t.kind.isKept) := h.countP_le
    _ = ys.countP (fun t => t.kind.isKept) + contents ts k := by rw [List.countP_append, countP_taken]
    _ ≤ ys.length + contents ts k := Nat.add_le_add_right List.countP_le_length _

theorem length_le_contents {xs : List Token} {ts : List Lexeme} {k : Nat} (hk : ∀ t ∈ xs, t.kind.isKept = true)
    (h : xs.Sublist (taken ts k)) : xs.length ≤ contents ts k := by
  rw [← countP_taken, ← List.countP_eq_length.2 hk]
  exact h.countP_le

theorem Made.tokens_kept {e : Node} (h : Made e) : ∀ t ∈ e.tokens, t.kind.isKept = true := by
  rcases h with rfl | h
  · simp [Node.tokens]
  · exact h.tokens_kept

section Sizes

variable {ts rest : List Lexeme}

theorem size_expression (hs : Spelt ts) (p : Int) :
    (expression p ts).1.tokens.length ≤ contents ts ((expression p ts).2 + 1) :=
  length_le_contents (made_expression p ts hs).tokens_kept (tokens_expression p ts)

theorem size_operators (hs : Spelt ts) (p : Int) {left : Node} (hl : Made left) :
    (operators p left ts).1.tokens.length ≤ left.tokens.length + contents ts.tail (operators p left ts).2 := by
  rw [← List.drop_one]
  exact length_le_add_contents (made_operators p left ts hl hs).tokens_kept (tokens_operators p left ts)

theorem size_operand {t : Lexeme} (hs : Spelt (t :: rest)) {e : Node} {k : Nat} (ho : operand t rest = some (e, k)) :
    e.tokens.length ≤ contents (t :: rest) (k + 1) :=
  length_le_contents (made_operand t rest hs ho).tokens_kept (tokens_operand t rest ho)

theorem size_clause (hs : Spelt rest) {c b : Node} {k : Nat} (hc : clause rest = (some (c, b), k)) :
    c.tokens.length + b.tokens.length ≤ contents rest k := by
  obtain ⟨hm, hb⟩ := made_clause rest hs hc
  rw [← List.length_append]
  exact length_le_contents (List.forall_mem_append.2 ⟨hm.tokens_kept, hb.tokens_kept⟩) (tokens_clause rest hc)

theorem size_braces (hs : Spelt ts) {b : Node} {k : Nat} (hb : braces ts = some (b, k)) :
    b.tokens.length ≤ contents ts.tail k := by
  rw [← List.drop_one]
  exact length_le_contents (formed_braces ts hs hb).tokens_kept (tokens_braces ts hb)

theorem size_statement (hs : Spelt ts) : (statement ts).1.tokens.length ≤ contents ts ((statement ts).2 + 1) :=
  length_le_contents (formed_statement ts hs).tokens_kept (tokens_statement ts)

theorem size_statements (hs : Spelt ts) :
    (Node.tokensList (statements ts).1).length ≤ contents ts (statements ts).2 :=
  length_le_contents (tokensList_kept fun s h => (formed_statements ts hs s h).tokens_kept) (tokens_statements ts)

theorem size_programOf (hs : Spelt ts) : (Node.tokensList (programOf ts)).length ≤ contents ts ts.length := by
  refine length_le_contents (tokensList_kept fun s h => (formed_programOf ts hs s h).tokens_kept) ?_
  rw [taken, List.take_length]
  exact tokens_programOf ts

end Sizes

/-! ## Where nothing is lost -/

theorem peekIs_drop {k : Kind} {ts : List Lexeme} {n : Nat} :
    peekIs k (ts.drop n) = true ↔ (cur (ts.drop (n + 1))).kind = k := by
  rw [peekIs, decide_eq_true_iff, ← List.tail_drop]
  rfl

theorem expression_eq_missing {ts : List Lexeme} (h : (cur ts).kind ∉ expressionStarts) (p : Int) :
    expression p ts = (.missing, 0) := by
  cases ts with
  | nil => rw [expression]
  | cons t rest =>
    have ho : operand t rest = none := by
      rw [operand]
      split <;> first | rfl | exact absurd (by simp_all [cur, expressionStarts]) h
    rw [expression, ho]

theorem not_mem_expressionStarts {k : Kind} (h : k.isOperator = true ∨ k = .rparen) : k ∉ expressionStarts := by
  cases k <;> first | decide | exact absurd h (by decide)

theorem group_passes (rest : List Lexeme) : (expression Kind.lowest rest).2 + 1 ≤ (group rest).2 := by
  rw [group]
  split
  next e k he =>
  rw [he]
  split <;> simp

/-- An expression reaches at least as far as its first operand. -/
theorem opening_le_expression (ts : List Lexeme) (p : Int) : opening ts ≤ (expression p ts).2 := by
  induction ts generalizing p with
  | nil => exact Nat.zero_le _
  | cons t rest ih =>
    by_cases ht : t.kind = .lparen
    · have ho : operand t rest = some ((group rest).1, (group rest).2) := by rw [operand, ht]
      have hlen : opening (t :: rest) = opening rest + 1 := by simp [opening, ht]
      have hrest := ih Kind.lowest
      have hgroup := group_passes rest
      rw [expression_of_operand ho, hlen]
      dsimp only
      omega
    · simp [opening, ht]

theorem Opens.expression_closed {ts : List Lexeme} (ho : Opens ts) (hk : Knit ts) {p : Int}
    (h : contents ts ((expression p ts).2 + 1) = 0) : (cur ts).kind = .rparen := by
  have hfew := contents_mono ts (Nat.add_le_add_right (opening_le_expression ts p) 1)
  exact ho.closed hk (by omega)

/-- Behind an opening parenthesis no operator is kept. -/
theorem worth_open {ts : List Lexeme} (ht : (cur ts).kind = .lparen) {p : Int}
    (h : (expression p ts.tail).1.tokens.length = contents ts.tail ((expression p ts.tail).2 + 1)) :
    worth ts = -1 := by
  refine worth_lparen ht (Bool.eq_false_iff.2 fun hop => ?_)
  change (cur ts.tail).kind.isOperator = true at hop
  rw [expression_eq_missing (not_mem_expressionStarts (.inl hop)), contents_one,
    content_kept rfl (Kind.isKept_of_isOperator hop)] at h
  cases h

/-- An operator without its right operand is paid for by the parenthesis that stands there. -/
theorem worth_operator_add {u : List Lexeme} (ht : (cur u).kind.isOperator = true) {q : Int}
    (h : 0 ≤ balance u.tail ((expression q u.tail).2 + 1)) :
    0 ≤ worth u + balance u.tail ((expression q u.tail).2 + 1) := by
  rw [worth_operator ht]
  split
  · next hp =>
    rw [expression_eq_missing (not_mem_expressionStarts (.inr hp)), balance_one, worth_rparen hp]
    decide
  · rwa [zero_add]

theorem closes_statements (ts : List Lexeme) :
    (cur (ts.drop (statements ts).2)).kind = .eof ∨ (cur (ts.drop (statements ts).2)).kind = .rbrace := by
  cases ts with
  | nil =>
    rw [statements]
    exact .inl rfl
  | cons t rest =>
    rw [statements]
    split
    · next ht => exact .inr ht
    · have hrest := closes_statements (rest.drop (statement (t :: rest)).2)
      rw [List.drop_drop] at hrest
      dsimp only
      rw [Nat.add_right_comm, List.drop_succ_cons]
      exact hrest
termination_by ts.length
decreasing_by simp only [List.length_drop, List.length_cons]; omega

theorem total_lineEnd {ts : List Lexeme} : contents ts.tail (lineEnd ts) = 0 ∧ balance ts.tail (lineEnd ts) = 0 := by
  unfold lineEnd
  split
  · next h =>
    have hk : (cur ts.tail).kind = .newline := of_decide_eq_true h
    exact ⟨content_dropped hk rfl, (balance_one _).trans (worth_of_kind hk (by decide) (by decide))⟩
  · exact ⟨rfl, rfl⟩

/-- What a print statement passes behind its value. -/
theorem balance_untilNewline {ts : List Lexeme} (hk : Knit ts) (h : contents ts.tail (untilNewline ts) = 0) :
    0 ≤ balance ts.tail (untilNewline ts) := by
  cases ts with
  | nil => decide
  | cons t ts =>
    by_cases ht : t.kind = .newline
    · have hlen : untilNewline (t :: ts) = 0 := by simp [untilNewline, ht]
      rw [hlen]
      exact Int.le_refl 0
    · have hlen : untilNewline (t :: ts) = untilNewline ts + 1 := by simp [untilNewline, ht]
      rw [hlen] at h ⊢
      exact le_trans (le_max_left 0 _) (balance_line hk.2 h)

theorem group_of_rparen {rest : List Lexeme}
    (h : (cur (rest.drop ((expression Kind.lowest rest).2 + 1))).kind = .rparen) :
    group rest = ((expression Kind.lowest rest).1, (expression Kind.lowest rest).2 + 1 + 1) := by
  rw [group]
  exact if_pos (peekIs_drop.2 h)

theorem group_of_ne_rparen {rest : List Lexeme}
    (h : (cur (rest.drop ((expression Kind.lowest rest).2 + 1))).kind ≠ .rparen) :
    group rest = (.missing, (expression Kind.lowest rest).2 + 1) := by
  rw [group]
  exact if_neg fun hp => h (peekIs_drop.1 hp)

theorem clause_eq_some {rest : List Lexeme} {c b : Node} {k : Nat} (h : clause rest = (some (c, b), k)) :
    ∃ t more j, rest = t :: more ∧ t.kind = .lparen ∧ c = (expression Kind.lowest more).1 ∧
      (cur (more.drop ((expression Kind.lowest more).2 + 1))).kind = .rparen ∧
      braces (more.drop ((expression Kind.lowest more).2 + 1)) = some (b, j) ∧
      k = (expression Kind.lowest more).2 + 3 + j := by
  cases rest with
  | nil =>
    rw [clause] at h
    cases h
  | cons t more =>
    rw [clause] at h
    split at h
    · next ht =>
      split at h
      next e j he =>
      split at h
      · next hp =>
        split at h
        · next b' i hb =>
          obtain ⟨hcb, rfl⟩ := Prod.mk.inj h
          obtain ⟨rfl, rfl⟩ := Prod.mk.inj (Option.some.inj hcb)
          refine ⟨t, more, i, rfl, ht, ?_⟩
          rw [he]
          exact ⟨rfl, peekIs_drop.1 hp, hb, rfl⟩
        · cases h
      · cases h
    · cases h

theorem braces_eq_some {ts : List Lexeme} {b : Node} {k : Nat} (h : braces ts = some (b, k)) :
    ∃ a t rest, ts = a :: t :: rest ∧ t.kind = .lbrace ∧ b = .block t.token (statements rest).1 ∧
      k = (statements rest).2 + 2 := by
  unfold braces at h
  split at h
  · next a t rest =>
    split at h
    · next ht =>
      obtain ⟨rfl, rfl⟩ := Prod.mk.inj (Option.some.inj h)
      exact ⟨a, t, rest, rfl, ht, rfl, rfl⟩
    · cases h
  · cases h

theorem length_tokens_ofName (t : Lexeme) : (Node.ofName t).tokens.length = 1 := rfl

mutual

theorem balance_expression (p : Int) (ts : List Lexeme) (hs : Spelt ts) (hk : Knit ts)
    (h : (expression p ts).1.tokens.length = contents ts ((expression p ts).2 + 1)) :
    0 ≤ balance ts ((expression p ts).2 + 1) := by
  match ts with
  | [] =>
    rw [expression]
    decide
  | t :: rest =>
    cases ho : operand t rest with
    | none =>
      have hstart : (cur (t :: rest)).kind ∉ expressionStarts := operand_eq_none ho
      rw [expression_eq_missing hstart] at h ⊢
      have hopen : (cur (t :: rest)).kind ≠ .lparen := fun hl => hstart (by rw [hl]; decide)
      obtain ⟨hworth, hturn⟩ := worth_of_not_isKept (content_eq_zero.1 h.symm) hopen
      rw [balance_one, hworth]
      exact hturn
    | some r =>
      obtain ⟨left, k⟩ := r
      have hleft := size_operand hs ho
      have hops := size_operators (hs.drop k) p (made_operand t rest hs ho)
      have hfirst := balance_operand t rest hs hk ho
      have hmore := balance_operators p left ((t :: rest).drop k) (made_operand t rest hs ho) (hs.drop k) (hk.drop k)
      rw [expression_of_operand ho] at h ⊢
      generalize operators p left ((t :: rest).drop k) = r at h hops hmore ⊢
      obtain ⟨e, j⟩ := r
      dsimp only at h hops hmore ⊢
      rw [List.tail_drop] at hops hmore
      rw [Nat.add_right_comm, contents_add] at h
      rw [Nat.add_right_comm, balance_add]
      have h₁ := hfirst (by omega)
      have h₂ := hmore (by omega)
      omega
termination_by 5 * ts.length + 1

theorem balance_operand (t : Lexeme) (rest : List Lexeme) (hs : Spelt (t :: rest)) (hk : Knit (t :: rest)) {e : Node}
    {k : Nat} (ho : operand t rest = some (e, k)) (h : e.tokens.length = contents (t :: rest) (k + 1)) :
    0 ≤ balance (t :: rest) (k + 1) := by
  rw [operand] at ho
  split at ho
  · next ht =>
    obtain ⟨-, rfl⟩ := Prod.mk.inj (Option.some.inj ho)
    rw [Nat.zero_add, balance_one, worth_of_kind (u := t :: rest) ht (by decide) (by decide)]
    decide
  · next ht =>
    obtain ⟨-, rfl⟩ := Prod.mk.inj (Option.some.inj ho)
    rw [Nat.zero_add, balance_one, worth_of_kind (u := t :: rest) ht (by decide) (by decide)]
    decide
  · next ht =>
    have hg := balance_group t rest ht hs hk
    rw [Option.some.inj ho] at hg
    exact hg h
  · next ht =>
    have hc := balance_choice t rest ht hs hk
    rw [Option.some.inj ho] at hc
    exact hc h
  · next ht =>
    have hl := balance_loop t rest ht hs hk
    rw [Option.some.inj ho] at hl
    exact hl h
  · cases ho
termination_by 5 * rest.length + 4

theorem balance_operators (p : Int) (left : Node) (ts : List Lexeme) (hl : Made left) (hs : Spelt ts) (hk : Knit ts)
    (h : (operators p left ts).1.tokens.length = left.tokens.length + contents ts.tail (operators p left ts).2) :
    0 ≤ balance ts.tail (operators p left ts).2 := by
  match ts with
  | [] =>
    rw [operators]
    · exact Int.le_refl 0
    · simp
  | [a] =>
    rw [operators]
    · exact Int.le_refl 0
    · simp
  | a :: op :: rest =>
    by_cases hq : ∃ q, op.kind.strength? = some q ∧ p < q
    · obtain ⟨q, hq, hp⟩ := hq
      have hop : (cur (op :: rest)).kind.isOperator = true := Option.isSome_iff_exists.2 ⟨q, hq⟩
      have hbinary := hl.binary hs.tail hq (made_expression q rest hs.tail.tail)
      have hright := size_expression hs.tail.tail q
      have hmore := size_operators (hs.tail.tail.drop (expression q rest).2) p hbinary
      have hr := balance_expression q rest hs.tail.tail hk.tail.tail
      have ho := balance_operators p _ (rest.drop (expression q rest).2) hbinary (hs.tail.tail.drop _)
        (hk.tail.tail.drop _)
      rw [operators_cons, behind_operator hq hp] at h ⊢
      have hlen : ∀ j, 2 + (expression q rest).2 + j = (expression q rest).2 + 1 + j + 1 := by intro j; omega
      have hcontent : content (op :: rest) = 1 := content_kept rfl (Kind.isKept_of_isOperator hop)
      have htokens : (Node.binary op.token left (.str op.text) (expression q rest).1).tokens.length =
          left.tokens.length + (expression q rest).1.tokens.length + 1 := by
        rw [Node.tokens, List.length_append, List.length_cons, Nat.add_assoc]
      dsimp only [List.tail_cons] at h ⊢
      rw [hlen, contents_succ, List.tail_cons, contents_add] at h
      rw [hlen, balance_succ, List.tail_cons, balance_add]
      rw [List.tail_drop] at hmore ho
      have h₁ := worth_operator_add (u := op :: rest) hop (hr (by omega))
      have h₂ := ho (by omega)
      dsimp only [List.tail_cons] at h₁
      omega
    · have hstop : ∀ s, (cur (op :: rest)).kind.strength? = some s → s ≤ p :=
        fun s hs => Int.not_lt.1 fun hlt => hq ⟨s, hs, hlt⟩
      rw [operators_cons, behind_of_le left hstop]
      exact Int.le_refl 0
termination_by 5 * ts.length + 0

theorem balance_group (t : Lexeme) (rest : List Lexeme) (ht : t.kind = .lparen) (hs : Spelt (t :: rest))
    (hk : Knit (t :: rest)) (h : (group rest).1.tokens.length = contents (t :: rest) ((group rest).2 + 1)) :
    0 ≤ balance (t :: rest) ((group rest).2 + 1) := by
  have hsize := size_expression hs.tail Kind.lowest
  have he := balance_expression Kind.lowest rest hs.tail hk.2
  have hcontent : content (t :: rest) = 0 := content_dropped ht rfl
  rw [contents_succ, hcontent, List.tail_cons] at h
  rw [balance_succ, List.tail_cons]
  by_cases hp : (cur (rest.drop ((expression Kind.lowest rest).2 + 1))).kind = .rparen
  · rw [group_of_rparen hp] at h ⊢
    have hclose : content (rest.drop ((expression Kind.lowest rest).2 + 1)) = 0 := content_dropped hp rfl
    dsimp only at h ⊢
    rw [contents_add, contents_one, hclose] at h
    rw [balance_add, balance_one, worth_rparen hp]
    have hkept : (expression Kind.lowest rest).1.tokens.length =
        contents rest ((expression Kind.lowest rest).2 + 1) := by
      omega
    have hopen : worth (t :: rest) = -1 := worth_open ht hkept
    have hinner := he hkept
    omega
  · -- nothing was in the parentheses, so they are those of a missing condition
    rw [group_of_ne_rparen hp] at h ⊢
    have hclosed := (hk.1 ht).expression_closed hk.2 (by rw [← h.trans (Nat.zero_add _)]; rfl)
    have hmissing := expression_eq_missing (not_mem_expressionStarts (.inr hclosed)) Kind.lowest
    have hopen : worth (t :: rest) = -1 := by
      refine worth_lparen ht ?_
      change (cur rest).kind.isOperator = false
      rw [hclosed]
      rfl
    rw [hmissing, hopen, balance_one, worth_rparen hclosed]
    decide
termination_by 5 * rest.length + 2

theorem balance_clause (rest : List Lexeme) (hs : Spelt rest) (hk : Knit rest) {c b : Node} {k : Nat}
    (hc : clause rest = (some (c, b), k)) (h : c.tokens.length + b.tokens.length = contents rest k) :
    0 ≤ balance rest k ∧ (peek rest).kind ≠ .rparen := by
  obtain ⟨t, more, j, rfl, ht, rfl, hp, hb, rfl⟩ := clause_eq_some hc
  have hsize := size_expression hs.tail Kind.lowest
  have hbody := size_braces (hs.tail.drop _) hb
  have he := balance_expression Kind.lowest more hs.tail hk.2
  have hbraces := balance_braces _ (hs.tail.drop _) (hk.2.drop _) hb
  have hopen : content (t :: more) = 0 := content_dropped ht rfl
  have hclose : content (more.drop ((expression Kind.lowest more).2 + 1)) = 0 := content_dropped hp rfl
  have hlen : (expression Kind.lowest more).2 + 3 + j = (expression Kind.lowest more).2 + 1 + (j + 1) + 1 := by omega
  rw [hlen, contents_succ, hopen, List.tail_cons, contents_add, contents_succ (more.drop _), hclose] at h
  have hkept : (expression Kind.lowest more).1.tokens.length = contents more ((expression Kind.lowest more).2 + 1) := by
    omega
  constructor
  · have hworth : worth (t :: more) = -1 := worth_open ht hkept
    rw [hlen, balance_succ, hworth, List.tail_cons, balance_add, balance_succ (more.drop _), worth_rparen hp]
    have h₁ := he hkept
    have h₂ := hbraces (by omega)
    omega
  · intro hclosed
    change (cur more).kind = .rparen at hclosed
    rw [expression_eq_missing (not_mem_expressionStarts (.inr hclosed))] at hp
    rcases hk.1 ht with ⟨hstart, -⟩ | hop | ⟨-, hbrace⟩
    · rw [hclosed] at hstart
      exact absurd hstart (by decide)
    · rw [hclosed] at hop
      exact absurd hop (by decide)
    · rw [List.drop_one] at hp
      exact absurd (hp.symm.trans hbrace) (by decide)
termination_by 5 * rest.length + 2

theorem balance_braces (ts : List Lexeme) (hs : Spelt ts) (hk : Knit ts) {b : Node} {k : Nat}
    (hb : braces ts = some (b, k)) (h : b.tokens.length = contents ts.tail k) : 0 ≤ balance ts.tail k := by
  obtain ⟨a, t, rest, rfl, ht, rfl, rfl⟩ := braces_eq_some hb
  have hbody := balance_statements rest hs.tail.tail hk.tail.tail
  have hbrace : content (t :: rest) = 1 := content_kept ht rfl
  have hworth : worth (t :: rest) = turn .lbrace := worth_of_kind ht (by decide) (by decide)
  have hend : content (rest.drop (statements rest).2) = 0 ∧ worth (rest.drop (statements rest).2) = 0 := by
    rcases closes_statements rest with hc | hc
    · exact ⟨content_dropped hc rfl, worth_of_kind hc (by decide) (by decide)⟩
    · exact ⟨content_dropped hc rfl, worth_of_kind hc (by decide) (by decide)⟩
  rw [Node.tokens, List.length_cons, List.tail_cons, contents_succ, hbrace, List.tail_cons, contents_add, contents_one,
    hend.1] at h
  rw [List.tail_cons, balance_succ, hworth, List.tail_cons, balance_add, balance_one, hend.2]
  have h₁ := hbody (by omega)
  simp only [turn]
  omega
termination_by 5 * ts.length + 2

theorem balance_choice (t : Lexeme) (rest : List Lexeme) (ht : t.kind = .ifWord) (hs : Spelt (t :: rest))
    (hk : Knit (t :: rest)) (h : (choice t rest).1.tokens.length = contents (t :: rest) ((choice t rest).2 + 1)) :
    0 ≤ balance (t :: rest) ((choice t rest).2 + 1) := by
  have hcontent : content (t :: rest) = 1 := content_kept ht rfl
  rw [contents_succ, hcontent, List.tail_cons] at h
  rw [balance_succ, List.tail_cons]
  cases hc : clause rest with
  | mk found k =>
    cases found with
    | none =>
      rw [choice, hc] at h
      change 0 = 1 + _ at h
      omega
    | some parts =>
      obtain ⟨c, y⟩ := parts
      have hsize := size_clause hs.tail hc
      have hclause := balance_clause rest hs.tail hk.2 hc
      have hworth (hp : (peek rest).kind ≠ .rparen) : worth (t :: rest) = 0 := worth_keyword (.inl ht) hp
      rw [choice, hc] at h ⊢
      dsimp only at h ⊢
      by_cases helse : peekIs .elseWord (rest.drop (k - 1)) = true
      · rw [if_pos helse] at h ⊢
        cases hb : braces (rest.drop k) with
        | none =>
          rw [hb] at h
          change 0 = 1 + _ at h
          omega
        | some found =>
          obtain ⟨no, j⟩ := found
          have hbody := size_braces (hs.tail.drop k) hb
          have hbraces := balance_braces _ (hs.tail.drop k) (hk.2.drop k) hb
          have hword : (cur (rest.drop k)).kind = .elseWord := by
            obtain ⟨t', more, i, -, -, -, -, -, hpassed⟩ := clause_eq_some hc
            have hcur := peekIs_drop.1 helse
            rwa [Nat.sub_add_cancel (by omega)] at hcur
          have hdropped : content (rest.drop k) = 0 := content_dropped hword rfl
          rw [hb] at h
          dsimp only at h ⊢
          rw [Nat.add_assoc, Nat.add_comm 1 j, contents_add, contents_succ, hdropped, Node.tokens, List.length_cons,
            List.length_append, List.length_append] at h
          rw [Nat.add_assoc, Nat.add_comm 1 j, balance_add, balance_succ, worth_of_kind hword (by decide) (by decide)]
          obtain ⟨h₁, hp⟩ := hclause (by omega)
          have h₂ := hbraces (by omega)
          rw [hworth hp]
          simp only [turn]
          omega
      · rw [if_neg helse] at h ⊢
        dsimp only at h ⊢
        rw [Node.tokens, List.length_cons, List.length_append, List.length_append] at h
        change _ + (_ + 0) + 1 = _ at h
        obtain ⟨h₁, hp⟩ := hclause (by omega)
        rw [hworth hp]
        omega
termination_by 5 * rest.length + 3

theorem balance_loop (t : Lexeme) (rest : List Lexeme) (ht : t.kind = .whileWord) (hs : Spelt (t :: rest))
    (hk : Knit (t :: rest)) (h : (loop t rest).1.tokens.length = contents (t :: rest) ((loop t rest).2 + 1)) :
    0 ≤ balance (t :: rest) ((loop t rest).2 + 1) := by
  have hcontent : content (t :: rest) = 1 := content_kept ht rfl
  rw [contents_succ, hcontent, List.tail_cons] at h
  rw [balance_succ, List.tail_cons]
  cases hc : clause rest with
  | mk found k =>
    cases found with
    | none =>
      rw [loop, hc] at h
      change 0 = 1 + _ at h
      omega
    | some parts =>
      obtain ⟨c, b⟩ := parts
      have hclause := balance_clause rest hs.tail hk.2 hc
      rw [loop, hc] at h ⊢
      dsimp only at h ⊢
      rw [Node.tokens, List.length_cons, List.length_append] at h
      obtain ⟨h₁, hp⟩ := hclause (by omega)
      have hworth : worth (t :: rest) = 0 := worth_keyword (.inr ht) hp
      rw [hworth]
      omega
termination_by 5 * rest.length + 3

theorem balance_statement (ts : List Lexeme) (hs : Spelt ts) (hk : Knit ts)
    (h : (statement ts).1.tokens.length = contents ts ((statement ts).2 + 1)) :
    0 ≤ balance ts ((statement ts).2 + 1) := by
  match ts with
  | [] =>
    rw [statement]
    decide
  | t :: rest =>
    rw [statement] at h ⊢
    have hlineEnd : ∀ (u : List Lexeme) (k : Nat), contents (u.drop (k + 1)) (lineEnd (u.drop k)) = 0 ∧
        balance (u.drop (k + 1)) (lineEnd (u.drop k)) = 0 := by
      intro u k
      rw [← List.tail_drop]
      exact total_lineEnd
    by_cases ha : (t.kind = .ident && (cur rest).kind = .assign) = true
    · rw [if_pos ha] at h ⊢
      obtain ⟨ht, hsign⟩ := Bool.and_eq_true_iff.1 ha
      have hname : content (t :: rest) = 1 := content_kept (of_decide_eq_true ht) rfl
      have hworth := worth_of_kind (u := t :: rest) (of_decide_eq_true ht) (by decide) (by decide)
      have hdropped := content_dropped (of_decide_eq_true hsign) rfl
      have hassign := worth_of_kind (of_decide_eq_true hsign) (by decide) (by decide)
      have htail : Spelt rest.tail := fun x hx => hs x (List.mem_cons_of_mem _ (List.mem_of_mem_tail hx))
      have hsize := size_expression htail Kind.lowest
      have hvalue := balance_expression Kind.lowest rest.tail htail hk.2.tail
      obtain ⟨hc, hb⟩ := hlineEnd rest.tail (expression Kind.lowest rest.tail).2
      have hlen : ∀ j, 2 + (expression Kind.lowest rest.tail).2 + j + 1 =
          (expression Kind.lowest rest.tail).2 + 1 + j + 1 + 1 := by intro j; omega
      dsimp only at h ⊢
      rw [hlen, contents_succ, hname, List.tail_cons, contents_succ, hdropped, contents_add, hc, Node.tokens,
        List.length_append, length_tokens_ofName] at h
      rw [hlen, balance_succ, hworth, List.tail_cons, balance_succ, hassign, balance_add, hb]
      have h₁ := hvalue (by omega)
      simp only [turn]
      omega
    · rw [if_neg ha] at h ⊢
      by_cases hp : t.kind = .printWord
      · rw [if_pos hp] at h ⊢
        have hword : content (t :: rest) = 1 := content_kept hp rfl
        have hworth := worth_of_kind (u := t :: rest) hp (by decide) (by decide)
        have hsize := size_expression hs.tail Kind.lowest
        have hvalue := balance_expression Kind.lowest rest hs.tail hk.2
        have hline := balance_untilNewline (hk.2.drop (expression Kind.lowest rest).2)
        have hlen : ∀ j, 1 + (expression Kind.lowest rest).2 + j + 1 = (expression Kind.lowest rest).2 + 1 + j + 1 := by
          intro j; omega
        dsimp only at h ⊢
        rw [List.tail_drop] at hline
        rw [hlen, contents_succ, hword, List.tail_cons, contents_add, Node.tokens, List.length_cons] at h
        rw [hlen, balance_succ, hworth, List.tail_cons, balance_add]
        have h₁ := hvalue (by omega)
        have h₂ := hline (by omega)
        simp only [turn]
        omega
      · rw [if_neg hp] at h ⊢
        have hvalue := balance_expression Kind.lowest (t :: rest) hs hk
        obtain ⟨hc, hb⟩ := hlineEnd (t :: rest) (expression Kind.lowest (t :: rest)).2
        dsimp only at h ⊢
        rw [Nat.add_right_comm, contents_add, hc, Node.tokens] at h
        rw [Nat.add_right_comm, balance_add, hb]
        have h₁ := hvalue (by omega)
        omega
termination_by 5 * ts.length + 2

theorem balance_statements (ts : List Lexeme) (hs : Spelt ts) (hk : Knit ts)
    (h : (Node.tokensList (statements ts).1).length = contents ts (statements ts).2) :
    0 ≤ balance ts (statements ts).2 := by
  match ts with
  | [] =>
    rw [statements]
    decide
  | t :: rest =>
    by_cases ht : t.kind = .rbrace
    · rw [statements, if_pos ht]
      exact Int.le_refl 0
    · have hfirst := size_statement hs
      have hmore := size_statements (hs.tail.drop (statement (t :: rest)).2)
      have hstatement := balance_statement (t :: rest) hs hk
      have hstatements := balance_statements (rest.drop (statement (t :: rest)).2) (hs.tail.drop _) (hk.2.drop _)
      rw [statements, if_neg ht] at h ⊢
      dsimp only at h ⊢
      rw [Node.tokensList, List.length_append, contents_add, List.drop_succ_cons] at h
      rw [balance_add, List.drop_succ_cons]
      have h₁ := hstatement (by omega)
      have h₂ := hstatements (by omega)
      omega
termination_by 5 * ts.length + 3

end

theorem balance_programOf (ts : List Lexeme) (hs : Spelt ts) (hk : Knit ts)
    (h : (Node.tokensList (programOf ts)).length = contents ts ts.length) : 0 ≤ balance ts ts.length := by
  match ts with
  | [] => exact Int.le_refl 0
  | t :: rest =>
    have hfirst := size_statement hs
    have hmore := size_programOf (hs.tail.drop (statement (t :: rest)).2)
    have hstatement := balance_statement (t :: rest) hs hk
    have hprogram := balance_programOf (rest.drop (statement (t :: rest)).2) (hs.tail.drop _) (hk.2.drop _)
    rw [programOf] at h
    generalize statement (t :: rest) = r at h hfirst hmore hstatement hprogram
    obtain ⟨s, k⟩ := r
    dsimp only at h hfirst hmore hstatement hprogram
    -- the statement may pass more lexemes than there are
    have hlength : (t :: rest).length ≤ k + 1 + (rest.drop k).length := by
      rw [List.length_drop, List.length_cons]
      omega
    rw [Node.tokensList, List.length_append, contents, ← total_of_length_le content rfl hlength, ← contents,
      contents_add, List.drop_succ_cons] at h
    rw [balance, ← total_of_length_le worth rfl hlength, ← balance, balance_add, List.drop_succ_cons]
    have h₁ := hstatement (by omega)
    have h₂ := hprogram (by omega)
    omega
termination_by ts.length
decreasing_by simp only [List.length_drop, List.length_cons]; omega

end Tolerant

end LineLang
