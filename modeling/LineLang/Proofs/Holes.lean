import LineLang.Proofs.Lossless

/-!
# Holes in a rendered tree

A tree that lacks a condition or an operand is not read back from its text. A tree with the same text would keep every
word that trees keep at all, so nothing is lost while the text is read, and the balance of the words is not negative.
But a tree is written with as many opening as closing parentheses, and each part that it lacks is a hole among the
words.

* `span f u rest` : the sum of `f` over the lexemes `u` in front of `rest`;
* `Node.lacks` : how many conditions and operands a tree lacks;
* `Formed.knit` : the words of a tree are knit;
* `Formed.span_content` : a tree keeps all of its words that can be kept;
* `Formed.span_worth` : the balance of its words is not above the number of parts that it lacks, taken negative;
* `shown_ne_of_hole` : whole texts.
-/

namespace LineLang

open Grammar

namespace Tolerant

/-! ## The words of a tree -/

def span {M : Type} [AddCommMonoid M] (f : List Lexeme → M) (u rest : List Lexeme) : M := total f (u ++ rest) u.length

section Span

variable {M : Type} [AddCommMonoid M] (f : List Lexeme → M)

theorem span_nil (rest : List Lexeme) : span f [] rest = 0 := rfl

theorem span_cons (t : Lexeme) (u rest : List Lexeme) :
    span f (t :: u) rest = f (t :: (u ++ rest)) + span f u rest := rfl

theorem span_append (u v rest : List Lexeme) : span f (u ++ v) rest = span f u (v ++ rest) + span f v rest := by
  rw [span, List.append_assoc, List.length_append, total_append]
  rfl

end Span

end Tolerant

open Tolerant

namespace Node

def absent (n : Node) : Nat := if n.isMissing then 1 else 0

def lacks (n : Node) : Nat := n.gaps.countP fun s => s == .condition || s == .operand

theorem countP_hole (p : Slot → Bool) (s : Slot) (n : Node) :
    (n.hole s).countP p = if p s then n.absent else 0 := by
  cases hn : n.isMissing <;> cases hs : p s <;> simp [hole, absent, hn, hs]

theorem lacks_binary (t : Token) (l : Node) (o : Json) (r : Node) :
    (binary t l o r).lacks = l.absent + l.lacks + (r.absent + r.lacks) := by
  simp only [lacks, gaps, List.countP_append, countP_hole]
  rfl

theorem lacks_cond (t : Token) (c y n : Node) : (cond t c y n).lacks = c.absent + c.lacks + (y.lacks + n.lacks) := by
  simp only [lacks, gaps, List.countP_append, countP_hole]
  rfl

theorem lacks_loop (t : Token) (c b : Node) : (loop t c b).lacks = c.absent + c.lacks + b.lacks := by
  simp only [lacks, gaps, List.countP_append, countP_hole]
  rfl

theorem lacks_assign (t : Token) (n v : Node) : (assign t n v).lacks = n.lacks + v.lacks := by
  simp only [lacks, gaps, List.countP_append, countP_hole]
  exact congrArg _ (Nat.zero_add _)

theorem lacks_print (t : Token) (v : Node) : (print t v).lacks = v.lacks := by
  simp only [lacks, gaps, List.countP_append, countP_hole]
  exact Nat.zero_add _

theorem lacks_expr (t : Token) (e : Node) : (expr t e).lacks = e.lacks := by
  simp only [lacks, gaps, List.countP_append, countP_hole]
  exact Nat.zero_add _

theorem lacks_block (t : Token) (ss : List Node) : (block t ss).lacks = (root ss).lacks := rfl

theorem lacks_root_cons (s : Node) (ss : List Node) : (root (s :: ss)).lacks = s.lacks + (root ss).lacks := by
  simp only [lacks, gaps, gapsList, List.countP_append]

theorem eq_missing_of_isMissing {n : Node} (h : n.isMissing = true) : n = .missing := by
  cases n <;> first | rfl | cases h

end Node

namespace Formed

variable {gap : Slot → Prop} {n : Node}

theorem cur_words (h : Formed gap .expression n) (rest : List Lexeme) :
    (cur (n.words ++ rest)).kind ∈ expressionStarts := by
  cases h with
  | name _ hk => simp [Node.ofName, Node.words, cur, hk, expressionStarts]
  | number _ hk => simp [Tolerant.integer, Node.words, cur, hk, expressionStarts]
  | _ => simp [Node.words, cur, Lexeme.mark, expressionStarts]

theorem cur_operand {k : Kind} (hk : k.isOperator = true) (h : Formed gap (.place .operand) n) (rest : List Lexeme) :
    (cur (n.words ++ .mark k :: rest)).kind ∈ expressionStarts ∨
      (cur (n.words ++ .mark k :: rest)).kind.isOperator = true := by
  cases h with
  | empty _ => exact .inr hk
  | placed h => exact .inl (h.cur_words _)

/-- An expression does not begin with empty parentheses. -/
theorem opens (h : Formed gap .expression n) (rest : List Lexeme) : Opens (n.words ++ rest) := by
  refine .inl ⟨h.cur_words rest, ?_⟩
  rintro ⟨hopen, hclose⟩
  cases h with
  | name _ hk => simp [Node.ofName, Node.words, cur, hk] at hopen
  | number _ hk => simp [Tolerant.integer, Node.words, cur, hk] at hopen
  | @binary k left right hk hl _ =>
    rw [Node.words, List.cons_append, List.append_assoc] at hclose
    change (cur (left.words ++ .mark k :: (right.words ++ [.mark .rparen] ++ rest))).kind = .rparen at hclose
    have hs := hl.cur_operand ((Kind.isOperator_iff k).trans hk) (right.words ++ [.mark .rparen] ++ rest)
    rw [hclose] at hs
    exact absurd hs (by decide)
  | _ => simp [Node.words, cur, Lexeme.mark] at hopen

theorem opens_operand {k : Kind} (hk : k.isOperator = true) (h : Formed gap (.place .operand) n) (rest : List Lexeme) :
    Opens (n.words ++ .mark k :: rest) := by
  cases h with
  | empty _ => exact .inr (.inl hk)
  | placed h => exact h.opens _

theorem opens_condition {rest : List Lexeme} (h : Formed gap (.place .condition) n)
    (hrest : (cur rest).kind = .lbrace) : Opens (n.words ++ .mark .rparen :: rest) := by
  cases h with
  | empty _ => exact .inr (.inr ⟨rfl, hrest⟩)
  | placed h => exact h.opens _

theorem cur_block (h : Formed gap .block n) (rest : List Lexeme) : (cur (n.words ++ rest)).kind = .lbrace := by
  cases h
  rfl

end Formed

namespace Tolerant

theorem Knit.cons {t : Lexeme} {ts : List Lexeme} (h : Knit ts) (ht : t.kind ≠ .lparen) : Knit (t :: ts) :=
  ⟨fun hopen => absurd hopen ht, h⟩

theorem knit_wordLines {ss : List Node} (h : ∀ s ∈ ss, ∀ rest, Knit rest → Knit (s.words ++ rest)) {rest : List Lexeme}
    (hrest : Knit rest) : Knit (Node.wordLines ss ++ rest) := by
  induction ss with
  | nil => exact hrest
  | cons s ss ih =>
    obtain ⟨hs, hss⟩ := List.forall_mem_cons.1 h
    rw [Node.wordLines]
    split
    · exact ih hss
    · rw [List.append_assoc]
      exact hs _ ((ih hss).cons (by decide))

end Tolerant

namespace Formed

variable {gap : Slot → Prop} {n : Node}

/-- The words of a tree are knit. -/
theorem knit {r : Role} (h : Formed gap r n) : ∀ rest, Knit rest → Knit (n.words ++ rest) := by
  induction h with
  | empty _ => exact fun _ h => h
  | placed _ ih => exact ih
  | name _ hk => exact fun _ h => h.cons (by simp [hk])
  | number _ hk => exact fun _ h => h.cons (by simp [hk])
  | @binary k left right hk hl _ ihl ihr =>
    intro rest h
    have hop := (Kind.isOperator_iff k).trans hk
    have hmark : (Lexeme.mark k).kind ≠ .lparen := by
      rintro rfl
      exact absurd hop (by decide)
    simp only [Node.words, List.cons_append, List.append_assoc]
    exact ⟨fun _ => hl.opens_operand hop _, ihl _ ((ihr _ (h.cons (by decide))).cons hmark)⟩
  | choice hc hy ihc ihy =>
    intro rest h
    simp only [Node.words, List.cons_append, List.append_assoc, Node.isMissing_missing, if_true, List.nil_append]
    exact .cons ⟨fun _ => hc.opens_condition (hy.cur_block _), ihc _ ((ihy _ h).cons (by decide))⟩ (by decide)
  | choiceElse hc hy hn ihc ihy ihn =>
    intro rest h
    simp only [Node.words, List.cons_append, List.append_assoc, hn.isMissing_block]
    exact .cons ⟨fun _ => hc.opens_condition (hy.cur_block _),
      ihc _ ((ihy _ ((ihn _ h).cons (by decide))).cons (by decide))⟩ (by decide)
  | loop hc hb ihc ihb =>
    intro rest h
    simp only [Node.words, List.cons_append, List.append_assoc]
    exact .cons ⟨fun _ => hc.opens_condition (hb.cur_block _), ihc _ ((ihb _ h).cons (by decide))⟩ (by decide)
  | block _ ih =>
    intro rest h
    simp only [Node.words, List.cons_append, List.append_assoc]
    exact .cons (.cons (knit_wordLines ih (h.cons (by decide))) (by decide)) (by decide)
  | assign _ hk _ ih =>
    intro rest h
    exact .cons (.cons (ih _ h) (by decide)) (by simp [hk])
  | print _ ih => exact fun _ h => .cons (ih _ h) (by decide)
  | expr _ _ ih => exact ih

end Formed

namespace Tolerant

theorem worth_mark_le (k : Kind) (u : List Lexeme) : worth (.mark k :: u) ≤ turn k := worth_le _

/-- A place that is followed by a hole if `n` is missing. -/
theorem worth_le_of_hole {k : Kind} (n : Node) {rest : List Lexeme}
    (h : isHole k (cur rest).kind (peek rest).kind = true) :
    worth (.mark k :: (n.words ++ rest)) ≤ turn k - n.absent := by
  unfold Node.absent
  split
  · next hn =>
    rw [Node.eq_missing_of_isMissing hn]
    exact le_of_eq (worth_hole h)
  · rw [Nat.cast_zero, sub_zero]
    exact worth_le _

theorem worth_le_of_keyword {k : Kind} (hk : k = .ifWord ∨ k = .whileWord) (n : Node) (rest : List Lexeme) :
    worth (.mark k :: .mark .lparen :: (n.words ++ .mark .rparen :: rest)) ≤ - n.absent := by
  have hturn : turn k = 0 := by rcases hk with rfl | rfl <;> rfl
  unfold Node.absent
  split
  · next hn =>
    rw [Node.eq_missing_of_isMissing hn]
    have hhole : isHole k .lparen .rparen = true := isHole_keyword hk _ _
    have hworth : worth (.mark k :: .mark .lparen :: .mark .rparen :: rest) = turn k - 1 := worth_hole hhole
    rw [hturn] at hworth
    exact le_of_eq hworth
  · exact (worth_le _).trans hturn.le

end Tolerant

/-- The words of a statement are those of its line, unless it is blank. -/
theorem span_wordLines_content {ss : List Node} (h : ∀ s ∈ ss, ∀ rest, span content s.words rest = s.tokens.length)
    (rest : List Lexeme) : span content (Node.wordLines ss) rest = (Node.tokensList ss).length := by
  induction ss with
  | nil => rfl
  | cons s ss ih =>
    obtain ⟨hs, hss⟩ := List.forall_mem_cons.1 h
    rw [Node.wordLines, Node.tokensList, List.length_append]
    split
    · next hb =>
      obtain ⟨t, rfl⟩ := Node.exists_of_isBlank hb
      rw [ih hss]
      exact (Nat.zero_add _).symm
    · rw [span_append, span_cons, hs, ih hss, content_dropped (u := .mark .newline :: _) rfl rfl, Nat.zero_add]

/-- A tree keeps all of its words that trees keep at all. -/
theorem Formed.span_content {gap : Slot → Prop} {r : Role} {n : Node} (h : Formed gap r n) :
    ∀ rest, span content n.words rest = n.tokens.length := by
  have dropped (k : Kind) (u : List Lexeme) (hk : k.isKept = false) : content (.mark k :: u) = 0 :=
    content_dropped rfl hk
  have kept (k : Kind) (u : List Lexeme) (hk : k.isKept = true) : content (.mark k :: u) = 1 := content_kept rfl hk
  induction h with
  | empty _ => exact fun _ => rfl
  | placed _ ih => exact ih
  | name _ hk => exact fun _ => content_kept hk rfl
  | number _ hk => exact fun _ => content_kept hk rfl
  | @binary k left right hk _ _ ihl ihr =>
    intro rest
    have hop := Kind.isKept_of_isOperator ((Kind.isOperator_iff k).trans hk)
    simp only [Node.words, Node.tokens, Lexeme.lexeme_token, span_cons, span_append, span_nil, ihl, ihr,
      dropped .lparen _ rfl, dropped .rparen _ rfl, kept k _ hop, List.length_append, List.length_cons]
    omega
  | choice _ _ ihc ihy =>
    intro rest
    simp only [Node.words, Node.tokens, Node.isMissing_missing, if_true, span_cons, span_append, span_nil, ihc, ihy,
      dropped .lparen _ rfl, dropped .rparen _ rfl, kept .ifWord _ rfl, List.length_append, List.length_cons,
      List.length_nil]
    omega
  | choiceElse _ _ hn ihc ihy ihn =>
    intro rest
    simp only [Node.words, Node.tokens, hn.isMissing_block, Bool.false_eq_true, if_false, span_cons, span_append, ihc,
      ihy, ihn, dropped .lparen _ rfl, dropped .rparen _ rfl, dropped .elseWord _ rfl, kept .ifWord _ rfl,
      List.length_append, List.length_cons]
    omega
  | loop _ _ ihc ihb =>
    intro rest
    simp only [Node.words, Node.tokens, span_cons, span_append, ihc, ihb, dropped .lparen _ rfl, dropped .rparen _ rfl,
      kept .whileWord _ rfl, List.length_append, List.length_cons]
    omega
  | block _ ih =>
    intro rest
    simp only [Node.words, Node.tokens, span_cons, span_append, span_nil, span_wordLines_content ih,
      dropped .newline _ rfl, dropped .rbrace _ rfl, kept .lbrace _ rfl, List.length_cons]
    omega
  | @assign x value _ hk _ ih =>
    intro rest
    have hname (u : List Lexeme) : content (x :: u) = 1 := content_kept hk rfl
    simp only [Node.words, Node.tokens, Node.ofName, Lexeme.lexeme_token, span_cons, span_append, span_nil, ih, hname,
      dropped .assign _ rfl, List.length_append, List.length_cons, List.length_nil]
    omega
  | print _ ih =>
    intro rest
    simp only [Node.words, Node.tokens, span_cons, ih, kept .printWord _ rfl, List.length_cons]
    omega
  | expr _ _ ih => exact ih

theorem span_wordLines_worth {ss : List Node} (h : ∀ s ∈ ss, ∀ rest, span worth s.words rest + s.lacks ≤ 0)
    (rest : List Lexeme) : span worth (Node.wordLines ss) rest + (Node.root ss).lacks ≤ 0 := by
  induction ss with
  | nil => exact Int.le_refl 0
  | cons s ss ih =>
    obtain ⟨hs, hss⟩ := List.forall_mem_cons.1 h
    rw [Node.wordLines, Node.lacks_root_cons]
    split
    · next hb =>
      obtain ⟨t, rfl⟩ := Node.exists_of_isBlank hb
      have hblank : (Node.expr t .missing).lacks = 0 := rfl
      rw [hblank, Nat.zero_add]
      exact ih hss
    · have hfirst := hs (.mark .newline :: Node.wordLines ss ++ rest)
      have hline := worth_mark_le .newline (Node.wordLines ss ++ rest)
      have hmore := ih hss
      rw [span_append, span_cons]
      simp only [turn] at hline
      push_cast
      linarith

/-- A condition in parentheses behind a keyword. -/
theorem span_clause {k : Kind} (hk : k = .ifWord ∨ k = .whileWord) {c : Node}
    (hc : ∀ rest, span worth c.words rest + c.lacks ≤ 0) (u rest : List Lexeme) :
    span worth (.mark k :: .mark .lparen :: (c.words ++ .mark .rparen :: u)) rest + (c.absent + c.lacks) ≤
      span worth u rest := by
  have hword := worth_le_of_keyword hk c (u ++ rest)
  have hopen := worth_mark_le .lparen (c.words ++ .mark .rparen :: (u ++ rest))
  have hcondition := hc (.mark .rparen :: (u ++ rest))
  have hclose := worth_mark_le .rparen (u ++ rest)
  simp only [turn] at hopen hclose
  simp only [span_cons, span_append, List.append_assoc, List.cons_append]
  linarith

/-- A tree has as many opening as closing parentheses, and each condition or operand that it lacks is a hole. -/
theorem Formed.span_worth {gap : Slot → Prop} {r : Role} {n : Node} (h : Formed gap r n) :
    ∀ rest, span worth n.words rest + n.lacks ≤ 0 := by
  induction h with
  | empty _ => exact fun _ => Int.le_refl 0
  | placed _ ih => exact ih
  | @name x _ hk =>
    intro rest
    have hworth : worth (x :: rest) = turn .ident := worth_of_kind hk (by decide) (by decide)
    change worth (x :: rest) + 0 + 0 ≤ 0
    rw [hworth]
    decide
  | @number x _ hk =>
    intro rest
    have hworth : worth (x :: rest) = turn .num := worth_of_kind hk (by decide) (by decide)
    change worth (x :: rest) + 0 + 0 ≤ 0
    rw [hworth]
    decide
  | @binary k left right hk _ _ ihl ihr =>
    intro rest
    have hop := (Kind.isOperator_iff k).trans hk
    have hopen : worth (.mark .lparen :: (left.words ++ .mark k :: (right.words ++ .mark .rparen :: rest))) ≤
        -1 - left.absent := worth_le_of_hole left ((isHole_lparen _ _).trans hop)
    have hoperator : worth (.mark k :: (right.words ++ .mark .rparen :: rest)) ≤ turn k - right.absent :=
      worth_le_of_hole right (isHole_operator hop _ _)
    have hclose : worth (.mark .rparen :: rest) ≤ 1 := worth_mark_le .rparen rest
    have hl := ihl (.mark k :: (right.words ++ .mark .rparen :: rest))
    have hr := ihr (.mark .rparen :: rest)
    rw [turn_operator hop] at hoperator
    simp only [Node.words, Node.lacks_binary, Lexeme.lexeme_token, span_cons, span_append, span_nil, List.append_assoc,
      List.cons_append, List.nil_append]
    push_cast
    linarith
  | @choice c y _ _ ihc ihy =>
    intro rest
    have hclause := span_clause (.inl rfl) ihc y.words rest
    have hyes := ihy rest
    have hmissing : Node.missing.lacks = 0 := rfl
    rw [Node.words, Node.lacks_cond, hmissing, Node.isMissing_missing, if_pos rfl, List.append_nil]
    push_cast
    linarith
  | @choiceElse c y no _ _ hn ihc ihy ihn =>
    intro rest
    have hclause := span_clause (.inl rfl) ihc (y.words ++ .mark .elseWord :: no.words) rest
    have hyes := ihy (.mark .elseWord :: no.words ++ rest)
    have helse : worth (.mark .elseWord :: (no.words ++ rest)) ≤ 0 := worth_mark_le .elseWord _
    have hno := ihn rest
    rw [span_append, span_cons worth (.mark .elseWord)] at hclause
    rw [Node.words, Node.lacks_cond, hn.isMissing_block, if_neg Bool.false_ne_true]
    push_cast
    linarith
  | @loop c b _ _ ihc ihb =>
    intro rest
    have hclause := span_clause (.inr rfl) ihc b.words rest
    have hbody := ihb rest
    rw [Node.words, Node.lacks_loop]
    push_cast
    linarith
  | @block ss _ ih =>
    intro rest
    have hbrace := worth_mark_le .lbrace (.mark .newline :: (Node.wordLines ss ++ [.mark .rbrace]) ++ rest)
    have hnewline := worth_mark_le .newline (Node.wordLines ss ++ [.mark .rbrace] ++ rest)
    have hlines := span_wordLines_worth ih ([.mark .rbrace] ++ rest)
    have hend := worth_mark_le .rbrace ([] ++ rest)
    simp only [turn] at hbrace hnewline hend
    rw [Node.words, Node.lacks_block, span_cons, span_cons, span_append, span_cons, span_nil]
    linarith
  | @assign x value _ hk _ ih =>
    intro rest
    have hname : worth (x :: ([] ++ (.mark .assign :: value.words ++ rest))) = turn .ident :=
      worth_of_kind hk (by decide) (by decide)
    have hassign := worth_mark_le .assign (value.words ++ rest)
    have hvalue := ih rest
    have hlacks : (Node.ofName x).lacks = 0 := rfl
    simp only [turn] at hname hassign
    rw [Node.words, Node.lacks_assign, hlacks, Node.ofName, Node.words, Lexeme.lexeme_token, span_append, span_cons,
      span_nil, span_cons, Nat.zero_add]
    linarith
  | @print value _ ih =>
    intro rest
    have hword := worth_mark_le .printWord (value.words ++ rest)
    have hvalue := ih rest
    simp only [turn] at hword
    rw [Node.words, Node.lacks_print, span_cons]
    linarith
  | expr t _ ih =>
    intro rest
    rw [Node.words, Node.lacks_expr]
    exact ih rest

/-! ## Whole texts -/

/-- A tree that lacks a condition or an operand, anywhere, is not read back from its text: the text of what is read is
another one. -/
theorem shown_ne_of_hole {s : String}
    (h : .condition ∈ (Tolerant.parse s).gaps ∨ .operand ∈ (Tolerant.parse s).gaps) :
    ∃ text text', (Tolerant.parse s).shown = .ok text ∧ (Tolerant.parse text).shown = .ok text' ∧ text' ≠ text := by
  obtain ⟨ss, hroot, hss⟩ := formed_tolerant s
  obtain ⟨text, htext, -, hlexemes⟩ := shown_root hss
  obtain ⟨ss', hroot', hss'⟩ := formed_tolerant text
  obtain ⟨text', htext', -, hlexemes'⟩ := shown_root hss'
  rw [hroot] at h ⊢
  refine ⟨text, text', htext, hroot' ▸ htext', ?_⟩
  rintro rfl
  -- the words are read as a tree with the same words, so nothing is lost
  have hprogram : programOf (Node.wordLines ss) = ss' := by
    rw [← hlexemes]
    exact Node.root.inj hroot'
  have hkept : (Node.tokensList (programOf (Node.wordLines ss))).length =
      contents (Node.wordLines ss) (Node.wordLines ss).length := by
    have hspan := span_wordLines_content (fun s hs => (hss' s hs).span_content) []
    rw [span, List.append_nil] at hspan
    rw [hprogram, ← hspan, ← hlexemes, ← hlexemes']
  have hknit : Knit (Node.wordLines ss ++ []) := knit_wordLines (fun s hs => (hss s hs).knit) trivial
  have hlacks := span_wordLines_worth (fun s hs => (hss s hs).span_worth) []
  rw [List.append_nil] at hknit
  rw [span, List.append_nil] at hlacks
  have hbalance := balance_programOf _ (hlexemes ▸ spelt_lexemes _) hknit hkept
  have hpos : 0 < (Node.root ss).lacks := by
    refine List.countP_pos_iff.2 ?_
    rcases h with h | h
    · exact ⟨_, h, rfl⟩
    · exact ⟨_, h, rfl⟩
  change 0 ≤ total worth _ _ at hbalance
  omega

/-- The parenthesis behind the product closes a group, and the product is the right operand of a sum. -/
theorem shown_ne_of_hole_nested :
    (.condition ∈ (Tolerant.parse "x = 1 + (2 * )) - y").gaps ∨
      .operand ∈ (Tolerant.parse "x = 1 + (2 * )) - y").gaps) ∧
    ∃ text text', (Tolerant.parse "x = 1 + (2 * )) - y").shown = .ok text ∧
      (Tolerant.parse text).shown = .ok text' ∧ text' ≠ text := by
  have h : .condition ∈ (Tolerant.parse "x = 1 + (2 * )) - y").gaps ∨
      .operand ∈ (Tolerant.parse "x = 1 + (2 * )) - y").gaps := by decide +kernel
  exact ⟨h, shown_ne_of_hole h⟩

end LineLang
