import LineLang.Proofs.Agreement

/-!
# Reading a rendered tree

Both parsers read the text of a parsed tree back, up to blank statements and the tokens of expression statements. The
tolerant parser does so for every tree that lacks neither conditions nor operands, the strict one for every tree that
lacks no values either.

* `Rereads r n` : the tolerant parser reads the words of `n`, in the role `r`, as a tree with the same core;
* `Formed.rereads` : it does, where only values and whole statements are missing;
* `Derived r n` : the words of `n` have a derivation, whose tree has the same core;
* `Formed.derived` : they have one, where only whole statements are missing;
* `Parsed t` : one of the parsers returns `t`;
* `tolerant_parse_shown`, `strict_parse_shown` : whole texts.
-/

namespace LineLang

open Grammar Tolerant

/-! ## The tolerant parser -/

def Rereads : Role → Node → Prop
  | .expression, n => ∃ e, (∀ q, Reads q n.words e) ∧ e.core = n.core
  | .place _, n => n = .missing ∨ ∃ e, (∀ q, Reads q n.words e) ∧ e.core = n.core
  | .block, n => ∃ b, ReadsBlock n.words b ∧ b.core = n.core
  | .statement, n => n.isBlank = true ∨ (cur n.words).kind ≠ .newline ∧ n.words ≠ [] ∧
      ∃ s, s.core = n.core ∧ ∀ rest, (cur rest).kind ≠ .newline → ReadsStatement (n.words ++ [.mark .newline]) s rest

/-- The gaps of a tree that the tolerant parser reads back. -/
def Open (s : Slot) : Prop := s = .value ∨ s = .statement

theorem lowest_lt {k : Kind} {s : Int} (h : k.strength? = some s) : Kind.lowest < s := by
  cases k with
  | both | either | equal | notEqual | less | greater | atMost | atLeast | plus | minus | star | slash | percent =>
    obtain rfl := Option.some.inj h
    decide
  | _ => cases h

theorem endsLine_lineFeed (rest : List Lexeme) : EndsLine [.mark .newline] rest := .inl ⟨_, rfl, rfl⟩

/-- The lines of statements, in front of a closing brace or of the end. -/
theorem readsLines_wordLines {ss : List Node} (h : ∀ s ∈ ss, Rereads .statement s) :
    ∃ ss', Node.coreList ss' = Node.coreList ss ∧ ∀ rest, Closes rest →
      (cur (Node.wordLines ss ++ rest)).kind ≠ .newline ∧ ReadsLines (Node.wordLines ss) ss' rest := by
  induction ss with
  | nil =>
    refine ⟨[], rfl, fun rest hrest => ⟨?_, .nil hrest⟩⟩
    rcases hrest.kind with hk | hk <;> exact fun h => absurd (hk.symm.trans h) (by decide)
  | cons s ss ih =>
    obtain ⟨hs, hss⟩ := List.forall_mem_cons.1 h
    obtain ⟨ss', hcore, hlines⟩ := ih hss
    by_cases hb : s.isBlank = true
    · rw [Node.wordLines, if_pos hb, Node.coreList_cons_blank hb]
      exact ⟨ss', hcore, hlines⟩
    · obtain ⟨hstart, hne, s', hsc, hread⟩ := hs.resolve_left hb
      refine ⟨s' :: ss', Node.coreList_congr hsc hcore, fun rest hrest => ?_⟩
      obtain ⟨hnl, hrl⟩ := hlines rest hrest
      rw [Node.wordLines, if_neg hb]
      constructor
      · cases hw : s.words with
        | nil => exact absurd hw hne
        | cons t v =>
          rw [hw] at hstart
          exact hstart
      · have hline := hrl.cons (hread _ hnl)
        rw [List.append_assoc, List.singleton_append] at hline
        exact hline

namespace Rereads

theorem binary {k : Kind} {l r : Node} (hk : (Strict.tier? k).isSome = true) (hl : Rereads .expression l)
    (hr : Rereads .expression r) :
    Rereads .expression (.binary (Lexeme.mark k).token l (.str (Lexeme.mark k).text) r) := by
  obtain ⟨l', hlr, hlc⟩ := hl
  obtain ⟨r', hrr, hrc⟩ := hr
  obtain ⟨n, hn⟩ := Option.isSome_iff_exists.1 hk
  have hs : (Lexeme.mark k).kind.strength? = some (8 - (n : Int)) := by
    show k.strength? = _
    rw [strength?_eq, hn]
    rfl
  have hb := Reads.binary hs (hlr _) (Int.le_refl _) (hrr _) (Int.lt_succ _)
  refine ⟨.binary (Lexeme.mark k).token l' (.str (Lexeme.mark k).text) r', fun q => ?_, by simp [hlc, hrc]⟩
  have hg : Reads q (.mark .lparen :: ((l.words ++ .mark k :: r.words) ++ [.mark .rparen])) _ :=
    hb.group rfl rfl (lowest_lt hs)
  simpa [Node.words] using hg

theorem clause {c b : Node} (hc : Rereads .expression c) (hb : Rereads .block b) :
    ∃ c' b', ReadsClause (.mark .lparen :: (c.words ++ .mark .rparen :: b.words)) c' b' ∧
      c'.core = c.core ∧ b'.core = b.core := by
  obtain ⟨c', hcr, hcc⟩ := hc
  obtain ⟨b', hbr, hbc⟩ := hb
  exact ⟨c', b', .of_block rfl rfl (hcr 2) (by decide) hbr, hcc, hbc⟩

theorem choice {c y : Node} (hc : Rereads .expression c) (hy : Rereads .block y) :
    Rereads .expression (.cond (Lexeme.mark .ifWord).token c y .missing) := by
  obtain ⟨c', y', hclause, hcc, hyc⟩ := hc.clause hy
  refine ⟨.cond (Lexeme.mark .ifWord).token c' y' .missing, fun q => ?_, by simp [hcc, hyc]⟩
  simpa [Node.words] using Reads.choice (w := .mark .ifWord) (q := q) rfl hclause

theorem choiceElse {c y n : Node} (hc : Rereads .expression c) (hy : Rereads .block y) (hn : Rereads .block n)
    (hmissing : n.isMissing = false) : Rereads .expression (.cond (Lexeme.mark .ifWord).token c y n) := by
  obtain ⟨c', y', hclause, hcc, hyc⟩ := hc.clause hy
  obtain ⟨n', hnr, hnc⟩ := hn
  refine ⟨.cond (Lexeme.mark .ifWord).token c' y' n', fun q => ?_, by simp [hcc, hyc, hnc]⟩
  simpa [Node.words, hmissing] using
    Reads.choiceElse (w := .mark .ifWord) (x := .mark .elseWord) (q := q) rfl rfl hclause hnr

theorem loop {c b : Node} (hc : Rereads .expression c) (hb : Rereads .block b) :
    Rereads .expression (.loop (Lexeme.mark .whileWord).token c b) := by
  obtain ⟨c', b', hclause, hcc, hbc⟩ := hc.clause hb
  refine ⟨.loop (Lexeme.mark .whileWord).token c' b', fun q => ?_, by simp [hcc, hbc]⟩
  simpa [Node.words] using Reads.loop (w := .mark .whileWord) (q := q) rfl hclause

theorem block {ss : List Node} (h : ∀ s ∈ ss, Rereads .statement s) :
    Rereads .block (.block (Lexeme.mark .lbrace).token ss) := by
  obtain ⟨ss', hcore, hlines⟩ := readsLines_wordLines h
  -- the line feed behind the brace leaves a blank statement
  refine ⟨.block (Lexeme.mark .lbrace).token (.expr (Lexeme.mark .newline).token .missing :: ss'), ?_, ?_⟩
  · refine .of_lines (w := .mark .newline :: Node.wordLines ss) (r := .mark .rbrace) rfl rfl fun rest => ?_
    obtain ⟨hnl, hrl⟩ := hlines (.mark .rbrace :: rest) (.inr rfl)
    exact hrl.cons (.blank rfl hnl)
  · rw [Node.core_block, Node.core_block, Node.coreList_cons_blank rfl, hcore]

theorem assign {x : Lexeme} {v : Node} (hk : x.kind = .ident) (hv : Rereads (.place .value) v) :
    Rereads .statement (.assign x.token (.ofName x) v) := by
  refine .inr ⟨by simp [Node.words, Node.ofName, cur, hk], by simp [Node.words, Node.ofName], ?_⟩
  rcases hv with rfl | ⟨v', hvr, hvc⟩
  · exact ⟨_, rfl, fun rest hrest => .assign_missing hk rfl rfl hrest⟩
  · refine ⟨.assign x.token (.ofName x) v', by simp [hvc], fun rest _ => ?_⟩
    simpa [Node.words, Node.ofName] using
      ReadsStatement.assign (a := .mark .assign) hk rfl (hvr 2) (by decide) (endsLine_lineFeed rest)

theorem print {v : Node} (hv : Rereads (.place .value) v) :
    Rereads .statement (.print (Lexeme.mark .printWord).token v) := by
  refine .inr ⟨by simp [Node.words, cur, Lexeme.mark], by simp [Node.words], ?_⟩
  rcases hv with rfl | ⟨v', hvr, hvc⟩
  · exact ⟨_, rfl, fun rest _ => .print_missing rfl rfl⟩
  · refine ⟨.print (Lexeme.mark .printWord).token v', by simp [hvc], fun rest _ => ?_⟩
    simpa [Node.words] using ReadsStatement.print (x := .mark .printWord) rfl (hvr 2) (by decide)
      (endsLine_lineFeed rest) (by simp)

theorem expr (t : Token) {e : Node} (he : Rereads (.place .statement) e) : Rereads .statement (.expr t e) := by
  rcases he with rfl | ⟨e', her, hec⟩
  · exact .inl rfl
  · obtain ⟨x, v, hw, hx⟩ := (her 2).starts
    have hwords : (Node.expr t e).words = x :: v := hw
    refine .inr ⟨?_, by simp [hwords], .expr (cur e.words).token e', by simp [hec], fun rest _ => ?_⟩
    · rw [hwords]
      exact fun hk => absurd (hk ▸ hx) (by decide)
    · exact .expr (her 2) (by decide) (endsLine_lineFeed rest)

end Rereads

theorem Formed.rereads {r : Role} {n : Node} (h : Formed Open r n) : Rereads r n := by
  have filled : ∀ {s : Slot} {n : Node}, ¬ Open s → Formed Open (.place s) n → Rereads (.place s) n →
      Rereads .expression n := by
    intro s n hs hn hr
    exact hr.resolve_left (hn.expression_of_place hs).ne_missing
  have operand : ¬ Open .operand := by simp [Open]
  have condition : ¬ Open .condition := by simp [Open]
  induction h with
  | empty _ => exact .inl rfl
  | placed _ ih => exact .inr ih
  | name _ hk => exact ⟨_, fun q => .name hk, rfl⟩
  | number _ hk => exact ⟨_, fun q => .number hk, rfl⟩
  | binary hk hl hr ihl ihr => exact .binary hk (filled operand hl ihl) (filled operand hr ihr)
  | choice hc _ ihc ihy => exact (filled condition hc ihc).choice ihy
  | choiceElse hc _ hn ihc ihy ihn => exact (filled condition hc ihc).choiceElse ihy ihn hn.isMissing_block
  | loop hc _ ihc ihb => exact (filled condition hc ihc).loop ihb
  | block _ ih => exact .block ih
  | assign _ hk _ ih => exact .assign hk ih
  | print _ ih => exact .print ih
  | expr t _ ih => exact .expr t ih

theorem formed_tolerant (s : String) :
    ∃ ss, Tolerant.parse s = .root ss ∧ ∀ n ∈ ss, Formed (fun _ => True) .statement n :=
  ⟨_, rfl, formed_programOf _ (spelt_lexemes _)⟩

/-- A program whose conditions and operands are all there is read back from its text. -/
theorem tolerant_of_formed {ss : List Node} (h : ∀ n ∈ ss, Formed Open .statement n) :
    ∃ text, (Node.root ss).shown = .ok text ∧ (Tolerant.parse text).core = (Node.root ss).core := by
  obtain ⟨text, htext, -, hlex⟩ := shown_root h
  obtain ⟨ss', hcore, hlines⟩ := readsLines_wordLines fun s hs => (h s hs).rereads
  refine ⟨text, htext, ?_⟩
  rw [Tolerant.parse, hlex, programOf_of_lines (hlines [] (.inl rfl)).2, Node.core_root, Node.core_root, hcore]

/-- The tolerant parser reads the text of a tolerant tree back, whatever the text it came from, if no condition and no
operand is missing. -/
theorem tolerant_parse_shown {s : String} (hc : .condition ∉ (Tolerant.parse s).gaps)
    (ho : .operand ∉ (Tolerant.parse s).gaps) :
    ∃ text, (Tolerant.parse s).shown = .ok text ∧
      (Tolerant.parse text).pruned.unlabelled = (Tolerant.parse s).pruned.unlabelled ∧
      (Tolerant.parse text).shown = .ok text := by
  obtain ⟨ss, hroot, hss⟩ := formed_tolerant s
  rw [hroot] at hc ho ⊢
  have hopen : ∀ n ∈ ss, Formed Open .statement n := by
    intro n hn
    refine (hss n hn).restrict_statement fun slot hslot => ?_
    have hmem : slot ∈ (Node.root ss).gaps := Node.mem_gapsList.2 ⟨n, hn, hslot⟩
    cases slot with
    | statement => exact .inr rfl
    | value => exact .inl rfl
    | condition => exact absurd hmem hc
    | operand => exact absurd hmem ho
  obtain ⟨text, htext, hcore⟩ := tolerant_of_formed hopen
  exact ⟨text, htext, hcore, (Node.shown_eq_of_core_eq hcore).trans htext⟩

/-- Two values are missing, two statements share a line, and a block is not closed. -/
theorem tolerant_parse_shown_unclosed :
    .condition ∉ (Tolerant.parse "x = \ny , while (a < 2) \x7b print\n b").gaps ∧
    .operand ∉ (Tolerant.parse "x = \ny , while (a < 2) \x7b print\n b").gaps ∧
    ∃ text, (Tolerant.parse "x = \ny , while (a < 2) \x7b print\n b").shown = .ok text ∧
      (Tolerant.parse text).pruned.unlabelled =
        (Tolerant.parse "x = \ny , while (a < 2) \x7b print\n b").pruned.unlabelled ∧
      (Tolerant.parse text).shown = .ok text := by
  have hc : .condition ∉ (Tolerant.parse "x = \ny , while (a < 2) \x7b print\n b").gaps := by decide +kernel
  have ho : .operand ∉ (Tolerant.parse "x = \ny , while (a < 2) \x7b print\n b").gaps := by decide +kernel
  exact ⟨hc, ho, tolerant_parse_shown hc ho⟩

/-! ## The strict parser -/

def Derived : Role → Node → Prop
  | .expression, n => ∃ d : Derivation (.expression 0), d.yield = n.words ∧ Node.core d.tree = n.core
  | .place _, n => n = .missing ∨ ∃ d : Derivation (.expression 0), d.yield = n.words ∧ Node.core d.tree = n.core
  | .block, n => ∃ d : Derivation .block, d.yield = n.words ∧ Node.core d.tree = n.core
  | .statement, n => n.isBlank = true ∨ ∃ d : Derivation .statement, d.yield = n.words ∧ Node.core d.tree = n.core

theorem exists_raise {m n : Nat} (e : Derivation (.expression m)) (h : m ≤ n) :
    ∃ d : Derivation (.expression n), d.yield = e.yield ∧ d.tree = e.tree := by
  obtain ⟨k, rfl⟩ := Nat.exists_eq_add_of_le h
  exact ⟨e.raise k, e.yield_raise k, e.tree_raise k⟩

theorem exists_whole {n : Node} (h : Derived .expression n) :
    ∃ d : Derivation (.expression Strict.topTier), d.yield = n.words ∧ Node.core d.tree = n.core := by
  obtain ⟨e, hy, ht⟩ := h
  obtain ⟨d, hdy, hdt⟩ := exists_raise e (Nat.zero_le Strict.topTier)
  exact ⟨d, hdy.trans hy, (congrArg Node.core hdt).trans ht⟩

theorem exists_parens {n : Node} (h : Derived .expression n) :
    ∃ d : Derivation .parens, d.yield = .mark .lparen :: (n.words ++ [.mark .rparen]) ∧ Node.core d.tree = n.core := by
  obtain ⟨e, hy, ht⟩ := exists_whole h
  refine ⟨.parens (.mark .lparen) e (.mark .rparen), ?_, ht⟩
  rw [Derivation.yield, hy, Leaf.val_mark, Leaf.val_mark]

/-- An operator between two operands, in parentheses. -/
theorem derived_binary {k : Kind} {l r : Node} (hk : (Strict.tier? k).isSome = true) (hl : Derived .expression l)
    (hr : Derived .expression r) :
    Derived .expression (.binary (Lexeme.mark k).token l (.str (Lexeme.mark k).text) r) := by
  obtain ⟨tier, hn, htop⟩ : ∃ tier, Strict.tier? k = some (tier + 1) ∧ tier + 1 ≤ Strict.topTier := by
    cases k with
    | both | either | equal | notEqual | less | greater | atMost | atLeast | plus | minus | star | slash | percent =>
      exact ⟨_, rfl, by decide⟩
    | _ => cases hk
  obtain ⟨dl, hly, hlt⟩ := hl
  obtain ⟨dr, hry, hrt⟩ := hr
  obtain ⟨el, hely, helt⟩ := exists_raise dl (Nat.zero_le tier)
  obtain ⟨er, hery, hert⟩ := exists_raise dr (Nat.zero_le tier)
  obtain ⟨e, hey, het⟩ := exists_raise
    (.chain el (.operand ⟨.mark k, mem_operatorKinds.2 hn⟩ er .stop)) htop
  refine ⟨.group (.parens (.mark .lparen) e (.mark .rparen)), ?_, ?_⟩
  · simp [Derivation.yield, Node.words, hey, hely, hery, hly, hry]
  · show Node.core e.tree = _
    rw [het]
    simp [Derivation.tree, helt, hert, hlt, hrt]

theorem derived_lines {ss : List Node} (h : ∀ s ∈ ss, Derived .statement s) :
    ∃ d : Derivation .lines, d.yield = Node.wordLines ss ∧ Node.coreList d.tree = Node.coreList ss := by
  induction ss with
  | nil => exact ⟨.noLine, rfl, rfl⟩
  | cons s ss ih =>
    obtain ⟨hs, hss⟩ := List.forall_mem_cons.1 h
    obtain ⟨d, hy, ht⟩ := ih hss
    by_cases hb : s.isBlank = true
    · rw [Node.wordLines, if_pos hb, Node.coreList_cons_blank hb]
      exact ⟨d, hy, ht⟩
    · obtain ⟨e, hey, het⟩ := hs.resolve_left hb
      refine ⟨.line e (.mark .newline) d, ?_, Node.coreList_congr het ht⟩
      rw [Node.wordLines, if_neg hb, Derivation.yield, hey, hy, Leaf.val_mark]

theorem Formed.derived {gap : Slot → Prop} (hg : ∀ s, gap s → s = .statement) {r : Role} {n : Node}
    (h : Formed gap r n) : Derived r n := by
  have filled : ∀ {s : Slot} {n : Node}, s ≠ .statement → Formed gap (.place s) n → Derived (.place s) n →
      Derived .expression n := by
    intro s n hs hn hd
    exact hd.resolve_left (hn.expression_of_place fun h => hs (hg s h)).ne_missing
  induction h with
  | empty _ => exact .inl rfl
  | placed _ ih => exact .inr ih
  | @name x _ hk => exact ⟨.name ⟨x, hk⟩, rfl, rfl⟩
  | @number x _ hk => exact ⟨.number ⟨x, hk⟩, rfl, rfl⟩
  | binary hk hl hr ihl ihr =>
    exact derived_binary hk (filled (by decide) hl ihl) (filled (by decide) hr ihr)
  | choice hc _ ihc ihy =>
    obtain ⟨c, hcy, hct⟩ := exists_parens (filled (by decide) hc ihc)
    obtain ⟨y, hyy, hyt⟩ := ihy
    refine ⟨.choice (.mark .ifWord) c y, ?_, by simp [Derivation.tree, hct, hyt]⟩
    simp [Derivation.yield, Node.words, hcy, hyy]
  | choiceElse hc _ hn ihc ihy ihn =>
    obtain ⟨c, hcy, hct⟩ := exists_parens (filled (by decide) hc ihc)
    obtain ⟨y, hyy, hyt⟩ := ihy
    obtain ⟨n, hny, hnt⟩ := ihn
    refine ⟨.choiceElse (.mark .ifWord) c y (.mark .elseWord) n, ?_, by simp [Derivation.tree, hct, hyt, hnt]⟩
    simp [Derivation.yield, Node.words, hn.isMissing_block, hcy, hyy, hny]
  | loop hc _ ihc ihb =>
    obtain ⟨c, hcy, hct⟩ := exists_parens (filled (by decide) hc ihc)
    obtain ⟨b, hby, hbt⟩ := ihb
    refine ⟨.loop (.mark .whileWord) c b, ?_, by simp [Derivation.tree, hct, hbt]⟩
    simp [Derivation.yield, Node.words, hcy, hby]
  | block _ ih =>
    obtain ⟨d, hy, ht⟩ := derived_lines ih
    refine ⟨.block (.mark .lbrace) (.body (some (.mark .newline)) d) (.mark .rbrace), ?_, ?_⟩
    · simp [Derivation.yield, Node.words, hy]
    · simp [Derivation.tree, ht]
  | @assign x v _ hk hv ih =>
    obtain ⟨d, hy, ht⟩ := exists_whole (filled (by decide) hv ih)
    refine .inr ⟨.assign ⟨x, hk⟩ (.mark .assign) d, ?_, by simp [Derivation.tree, ht]⟩
    simp [Derivation.yield, Node.words, Node.ofName, hy]
  | print hv ih =>
    obtain ⟨d, hy, ht⟩ := exists_whole (filled (by decide) hv ih)
    refine .inr ⟨.print (.mark .printWord) d, ?_, by simp [Derivation.tree, ht]⟩
    simp [Derivation.yield, Node.words, hy]
  | expr t _ ih =>
    rcases ih with rfl | ih
    · exact .inl rfl
    · obtain ⟨d, hy, ht⟩ := exists_whole ih
      exact .inr ⟨.expr d, hy, by simp [Derivation.tree, ht]⟩

/-- A program that lacks nothing but whole statements is read back from its text by the strict parser. -/
theorem strict_of_formed {gap : Slot → Prop} (hg : ∀ s, gap s → s = .statement) {ss : List Node}
    (h : ∀ n ∈ ss, Formed gap .statement n) :
    ∃ text t, (Node.root ss).shown = .ok text ∧ Strict.parse text = .ok t ∧
      t.unlabelled = (Node.root ss).pruned.unlabelled := by
  obtain ⟨text, htext, hsplits, -⟩ := shown_root h
  obtain ⟨d, hy, ht⟩ := derived_lines fun s hs => (h s hs).derived hg
  have hparse : Strict.parse text = .ok (.root d.tree) := by
    refine Strict.parse_eq_ok_iff.2 ⟨.body none d, ?_, rfl⟩
    show Strict.Splits text.toList d.yield
    rw [hy]
    exact hsplits
  obtain ⟨ss', hroot, hformed⟩ := formed_of_parse hparse
  refine ⟨text, .root d.tree, htext, hparse, ?_⟩
  have hpruned : (Node.root d.tree).pruned = .root d.tree := by
    rw [hroot]
    exact pruned_root hformed fun h => h
  rw [← hpruned]
  show Node.root (Node.coreList d.tree) = Node.root (Node.coreList ss)
  rw [ht]

/-- The tree of some text, by one of the two parsers. -/
def Parsed (t : Node) : Prop := (∃ s, Strict.parse s = .ok t) ∨ ∃ s, Tolerant.parse s = t

theorem formed_of_parsed {t : Node} (h : Parsed t) :
    ∃ ss, t = .root ss ∧ ∀ n ∈ ss, Formed (fun _ => True) .statement n := by
  rcases h with ⟨s, hs⟩ | ⟨s, rfl⟩
  · obtain ⟨ss, rfl, hss⟩ := formed_of_parse hs
    exact ⟨ss, rfl, fun n hn => (hss n hn).restrict_statement fun _ _ => trivial⟩
  · exact formed_tolerant s

theorem formed_of_gaps {t : Node} (h : Parsed t) {gap : Slot → Prop} (hg : ∀ slot ∈ t.gaps, gap slot) :
    ∃ ss, t = .root ss ∧ ∀ n ∈ ss, Formed gap .statement n := by
  obtain ⟨ss, rfl, hss⟩ := formed_of_parsed h
  refine ⟨ss, rfl, fun n hn => (hss n hn).restrict_statement fun slot hslot => ?_⟩
  exact hg slot (Node.mem_gapsList.2 ⟨n, hn, hslot⟩)

/-- The strict parser accepts the text of every parsed tree that lacks no value, condition or operand, and returns that
tree without its blank statements. A strict tree lacks nothing, and the tolerant parser returns it from its text
too. -/
theorem strict_parse_shown :
    (∀ t : Node, Parsed t → .value ∉ t.gaps → .condition ∉ t.gaps → .operand ∉ t.gaps →
      ∃ text t', t.shown = .ok text ∧ Strict.parse text = .ok t' ∧ t'.unlabelled = t.pruned.unlabelled) ∧
    ∀ (s : String) (t : Node), Strict.parse s = .ok t → t.gaps = [] ∧
      ∃ text t', t.shown = .ok text ∧ Strict.parse text = .ok t' ∧ t'.unlabelled = t.unlabelled ∧
        (Tolerant.parse text).pruned.unlabelled = t.unlabelled := by
  constructor
  · intro t ht hv hc ho
    obtain ⟨ss, rfl, hss⟩ := formed_of_parsed ht
    have hblank : ∀ n ∈ ss, Formed (· = .statement) .statement n := by
      intro n hn
      refine (hss n hn).restrict_statement fun slot hslot => ?_
      have hmem : slot ∈ (Node.root ss).gaps := Node.mem_gapsList.2 ⟨n, hn, hslot⟩
      cases slot with
      | statement => rfl
      | value => exact absurd hmem hv
      | condition => exact absurd hmem hc
      | operand => exact absurd hmem ho
    exact strict_of_formed (fun _ h => h) hblank
  · intro s t ht
    obtain ⟨ss, rfl, hss⟩ := formed_of_parse ht
    have hpruned := pruned_root hss fun h => h
    obtain ⟨text, t', htext, hparse, hcore⟩ := strict_of_formed (fun _ h => h.elim) hss
    obtain ⟨text', htext', hcore'⟩ :=
      tolerant_of_formed fun n hn => (hss n hn).restrict_statement fun slot hslot =>
        ((hss n hn).gaps_satisfy slot hslot).elim
    obtain rfl : text = text' := Except.ok.inj (htext.symm.trans htext')
    rw [hpruned] at hcore
    rw [Node.core, Node.core, hpruned] at hcore'
    refine ⟨?_, text, t', htext, hparse, hcore, hcore'⟩
    refine List.eq_nil_iff_forall_not_mem.2 fun slot hslot => ?_
    obtain ⟨n, hn, hslot⟩ := Node.mem_gapsList.1 hslot
    exact (hss n hn).gaps_satisfy slot hslot

/-- A choice whose block ends with a print statement on the line of its brace. -/
def printBeforeBrace : Derivation .body :=
  let name (x : String) : Derivation (.expression Strict.topTier) := (Derivation.name (.spelt .ident x)).raise 6
  let condition : Derivation .parens := .parens (.mark .lparen) (name "a") (.mark .rparen)
  let block : Derivation .block := .block (.mark .lbrace)
    (.body none (.lastLine (.print (.mark .printWord) (name "b")))) (.mark .rbrace)
  .body none (.lastLine (.expr ((Derivation.choice (.mark .ifWord) condition block).raise 6)))

theorem strict_parse_shown_unclosed :
    (Parsed (Tolerant.parse "y , while (a < 2) \x7b b") ∧
      .value ∉ (Tolerant.parse "y , while (a < 2) \x7b b").gaps ∧
      .condition ∉ (Tolerant.parse "y , while (a < 2) \x7b b").gaps ∧
      .operand ∉ (Tolerant.parse "y , while (a < 2) \x7b b").gaps ∧
      ∃ text t', (Tolerant.parse "y , while (a < 2) \x7b b").shown = .ok text ∧ Strict.parse text = .ok t' ∧
        t'.unlabelled = (Tolerant.parse "y , while (a < 2) \x7b b").pruned.unlabelled) ∧
    Strict.parse "if (a) \x7b print b \x7d" = .ok (.root printBeforeBrace.tree) ∧
      ∃ text t', (Node.root printBeforeBrace.tree).shown = .ok text ∧ Strict.parse text = .ok t' ∧
        t'.unlabelled = (Node.root printBeforeBrace.tree).unlabelled ∧
        (Tolerant.parse text).pruned.unlabelled = (Node.root printBeforeBrace.tree).unlabelled := by
  have hparsed : Parsed (Tolerant.parse "y , while (a < 2) \x7b b") := .inr ⟨_, rfl⟩
  have hv : .value ∉ (Tolerant.parse "y , while (a < 2) \x7b b").gaps := by decide +kernel
  have hc : .condition ∉ (Tolerant.parse "y , while (a < 2) \x7b b").gaps := by decide +kernel
  have ho : .operand ∉ (Tolerant.parse "y , while (a < 2) \x7b b").gaps := by decide +kernel
  have hs : Strict.Splits "if (a) \x7b print b \x7d".toList printBeforeBrace.yield :=
    Strict.splits_iff_scan.2 ⟨by cbv, by cbv⟩
  have h := Strict.parse_eq_ok_iff.2 ⟨printBeforeBrace, hs, rfl⟩
  exact ⟨⟨hparsed, hv, hc, ho, strict_parse_shown.1 _ hparsed hv hc ho⟩, h, (strict_parse_shown.2 _ _ h).2⟩

end LineLang
