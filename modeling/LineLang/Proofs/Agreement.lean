import LineLang.Proofs.Rendering
import LineLang.Proofs.StrictParser
import LineLang.Proofs.TolerantParser

/-!
# The two parsers agree

On a text that the strict parser accepts, the tolerant parser builds the same tree, up to blank statements and the
tokens of expression statements. There is one exception: a print statement passes the rest of its line, so the brace
behind it is lost if the block ends on that line.

* `Derivation.endsInPrint` : the last statement prints, and no line end stands behind it;
* `Derivation.printsEndLines`, `PrintsEndLines s` : no block does so;
* `Derivation.lexemes` : the lexemes from which a derivation was made;
* `Agrees d` : the tolerant parser reads the tree of `d` from them;
* `Derivation.agrees` : it does so for each derivation in which prints end their lines.
-/

namespace LineLang

open Strict (IsTerminal Splits pieces pieces_of_ne)

namespace Grammar

namespace Derivation

def endsInPrint : {c : Part} → Derivation c → Bool
  | _, .print .. => true
  | _, .lastLine s => s.endsInPrint
  | _, .line _ _ more => more.endsInPrint
  | _, .body _ content => content.endsInPrint
  | _, _ => false

/-- In a block, a line end stands behind each print statement. -/
def printsEndLines : {c : Part} → Derivation c → Bool
  | _, .name _ => true
  | _, .number _ => true
  | _, .group e => e.printsEndLines
  | _, .choice _ condition yes => condition.printsEndLines && yes.printsEndLines
  | _, .choiceElse _ condition yes _ no => condition.printsEndLines && (yes.printsEndLines && no.printsEndLines)
  | _, .loop _ condition inner => condition.printsEndLines && inner.printsEndLines
  | _, .chain head more => head.printsEndLines && more.printsEndLines
  | _, .stop => true
  | _, .operand _ right more => right.printsEndLines && more.printsEndLines
  | _, .parens _ e _ => e.printsEndLines
  | _, .block _ content _ => !content.endsInPrint && content.printsEndLines
  | _, .assign _ _ value => value.printsEndLines
  | _, .print _ value => value.printsEndLines
  | _, .expr e => e.printsEndLines
  | _, .noLine => true
  | _, .lastLine s => s.printsEndLines
  | _, .line s _ more => s.printsEndLines && more.printsEndLines
  | _, .body _ content => content.printsEndLines

/-- The lexemes of a derivation: each line feed of a line end is one. -/
def lexemes {c : Part} (d : Derivation c) : List Lexeme := d.yield.flatMap pieces

end Derivation

/-- The tolerant parser reads the tree of the derivation from its lexemes, up to what cores forget. -/
def Agrees : {c : Part} → Derivation c → Prop
  | .expression tier, d => ∃ e, Tolerant.Reads (8 - tier) d.lexemes e ∧ e.core = d.tree.core
  | .operands tier, d => ∀ u l, Tolerant.Reads (7 - tier) u l →
      ∃ e, Tolerant.Reads (7 - tier) (u ++ d.lexemes) e ∧ ∀ left, left.core = l.core → e.core = (d.tree left).core
  | .parens, d => ∃ l u r e, d.lexemes = l :: (u ++ [r]) ∧ l.kind = .lparen ∧ r.kind = .rparen ∧
      Tolerant.Reads 2 u e ∧ e.core = d.tree.core
  | .block, d => ∃ b, Tolerant.ReadsBlock d.lexemes b ∧ b.core = d.tree.core
  | .statement, d => ∃ s, s.core = d.tree.core ∧ ∀ z rest, Tolerant.EndsLine z rest →
      (d.endsInPrint = true → z = [] → rest = []) → Tolerant.ReadsStatement (d.lexemes ++ z) s rest
  | .lines, d => ∃ ss, Node.coreList ss = Node.coreList d.tree ∧ ∀ rest, Tolerant.Closes rest →
      (d.endsInPrint = true → rest = []) → Tolerant.ReadsLines d.lexemes ss rest
  | .body, d => ∃ ss, Node.coreList ss = Node.coreList d.tree ∧ ∀ rest, Tolerant.Closes rest →
      (d.endsInPrint = true → rest = []) → Tolerant.ReadsLines d.lexemes ss rest

theorem flatMap_leaf {k : Kind} (x : Leaf k) (hk : k ≠ .newline) (u : List Lexeme) :
    (x.1 :: u).flatMap pieces = x.1 :: u.flatMap pieces := by
  rw [List.flatMap_cons, pieces_of_ne (by rw [x.2]; exact hk), List.singleton_append]

theorem Operator.strength {tier : Nat} (op : Operator (tier + 1)) : op.1.kind.strength? = some (7 - (tier : Int)) := by
  rw [strength?_eq, op.tier]
  simp only [Option.map_some, Option.some.injEq]
  omega

theorem flatMap_operator {tier : Nat} (op : Operator (tier + 1)) (u : List Lexeme) :
    (op.1 :: u).flatMap pieces = op.1 :: u.flatMap pieces := by
  have hn : op.1.kind ≠ .newline := by
    intro hn
    have hs := op.strength
    rw [hn] at hs
    cases hs
  rw [List.flatMap_cons, pieces_of_ne hn, List.singleton_append]

theorem kind_lineFeed : (Lexeme.mark .newline).kind = .newline := rfl

/-- A line end is at least one line feed. -/
theorem pieces_newline (x : Leaf .newline) (hx : IsTerminal x.1) :
    ∃ n, pieces x.1 = List.replicate (n + 1) (.mark .newline) := Strict.pieces_lineEnd hx x.2

namespace Derivation

open Tolerant

/-- The lexemes of a statement, a line end and the lines behind it. -/
theorem lexemes_line (s : Derivation .statement) {nl : Leaf .newline} (hnl : IsTerminal nl.1)
    (more : Derivation .lines) : ∃ n, (Derivation.line s nl more).lexemes =
      s.lexemes ++ .mark .newline :: (List.replicate n (.mark .newline) ++ more.lexemes) := by
  obtain ⟨n, hn⟩ := pieces_newline nl hnl
  refine ⟨n, ?_⟩
  rw [lexemes, yield, List.flatMap_append, List.flatMap_cons, hn, List.replicate_succ, List.cons_append]
  rfl

theorem lexemes_body {nl : Leaf .newline} (hnl : IsTerminal nl.1) (content : Derivation .lines) :
    ∃ n, (Derivation.body (some nl) content).lexemes = List.replicate (n + 1) (.mark .newline) ++ content.lexemes := by
  obtain ⟨n, hn⟩ := pieces_newline nl hnl
  refine ⟨n, ?_⟩
  rw [lexemes, yield, List.flatMap_append, ← hn]
  simp [lexemes]

/-- Neither lines nor what closes them begin with a line feed. -/
theorem not_newline (ls : Derivation .lines) {rest : List Lexeme} (hrest : Closes rest) :
    (cur (ls.lexemes ++ rest)).kind ≠ .newline := by
  rcases ls.starts with hl | ⟨t, v, hl, ht⟩
  · rw [lexemes, hl]
    rcases hrest.kind with hk | hk <;> exact fun h => absurd (hk.symm.trans h) (by decide)
  · have hn : t.kind ≠ .newline := fun hk => absurd (hk ▸ ht) (by decide)
    rw [lexemes, hl, List.flatMap_cons, pieces_of_ne hn]
    exact hn

end Derivation

namespace Agrees

open LineLang.Grammar.Derivation Tolerant

theorem name (x : Leaf .ident) : Agrees (.name x) := by
  refine ⟨_, ?_, rfl⟩
  rw [Derivation.lexemes, yield, flatMap_leaf x (by decide)]
  exact .name x.2

theorem number (x : Leaf .num) : Agrees (.number x) := by
  refine ⟨_, ?_, rfl⟩
  rw [Derivation.lexemes, yield, flatMap_leaf x (by decide)]
  exact .number x.2

theorem group {e : Derivation .parens} (h : Agrees e) : Agrees (.group e) := by
  obtain ⟨l, u, r, e', hu, hl, hr, hread, hcore⟩ := h
  refine ⟨e', ?_, hcore⟩
  have hlex : (Derivation.group e).lexemes = l :: (u ++ [r]) := hu
  rw [hlex]
  exact hread.group hl hr (by decide)

theorem clause {condition : Derivation .parens} {inner : Derivation .block} (hc : Agrees condition)
    (hb : Agrees inner) : ∃ c b, ReadsClause (condition.lexemes ++ inner.lexemes) c b ∧
      c.core = condition.tree.core ∧ b.core = inner.tree.core := by
  obtain ⟨l, u, r, c, hu, hl, hr, hread, hcc⟩ := hc
  obtain ⟨b, hb, hbc⟩ := hb
  refine ⟨c, b, ?_, hcc, hbc⟩
  rw [hu, List.cons_append, List.append_assoc, List.singleton_append]
  exact .of_block hl hr hread (by decide) hb

theorem choice {condition : Derivation .parens} {yes : Derivation .block} (hc : Agrees condition) (hy : Agrees yes)
    (x : Leaf .ifWord) : Agrees (.choice x condition yes) := by
  obtain ⟨c, y, hread, hcc, hyc⟩ := hc.clause hy
  refine ⟨.cond x.1.token c y .missing, ?_, by simp [tree, hcc, hyc]⟩
  rw [Derivation.lexemes, yield, flatMap_leaf x (by decide), List.flatMap_append]
  exact .choice x.2 hread

theorem choiceElse {condition : Derivation .parens} {yes no : Derivation .block} (hc : Agrees condition)
    (hy : Agrees yes) (hn : Agrees no) (x : Leaf .ifWord) (word : Leaf .elseWord) :
    Agrees (.choiceElse x condition yes word no) := by
  obtain ⟨c, y, hread, hcc, hyc⟩ := hc.clause hy
  obtain ⟨n, hn, hnc⟩ := hn
  refine ⟨.cond x.1.token c y n, ?_, by simp [tree, hcc, hyc, hnc]⟩
  rw [Derivation.lexemes, yield, flatMap_leaf x (by decide), List.flatMap_append, List.flatMap_append,
    flatMap_leaf word (by decide), ← List.append_assoc]
  exact .choiceElse x.2 word.2 hread hn

theorem loop {condition : Derivation .parens} {inner : Derivation .block} (hc : Agrees condition) (hb : Agrees inner)
    (x : Leaf .whileWord) : Agrees (.loop x condition inner) := by
  obtain ⟨c, b, hread, hcc, hbc⟩ := hc.clause hb
  refine ⟨.loop x.1.token c b, ?_, by simp [tree, hcc, hbc]⟩
  rw [Derivation.lexemes, yield, flatMap_leaf x (by decide), List.flatMap_append]
  exact .loop x.2 hread

theorem chain {tier : Nat} {head : Derivation (.expression tier)} {more : Derivation (.operands tier)}
    (hh : Agrees head) (hm : Agrees more) : Agrees (.chain head more) := by
  obtain ⟨l, hl, hlc⟩ := hh
  obtain ⟨e, he, hec⟩ := hm head.lexemes l (hl.mono (by omega))
  refine ⟨e, ?_, hec _ hlc.symm⟩
  have htier : (8 : Int) - ((tier + 1 : Nat) : Int) = 7 - (tier : Int) := by omega
  rw [htier, Derivation.lexemes, yield, List.flatMap_append]
  exact he

theorem stop {tier : Nat} : Agrees (.stop : Derivation (.operands tier)) := by
  intro u l hl
  refine ⟨l, ?_, fun left hleft => hleft.symm⟩
  rw [Derivation.lexemes, yield, List.flatMap_nil, List.append_nil]
  exact hl

theorem operand {tier : Nat} {right : Derivation (.expression tier)} {more : Derivation (.operands tier)}
    (hr : Agrees right) (hm : Agrees more) (op : Operator (tier + 1)) : Agrees (.operand op right more) := by
  intro u l hl
  obtain ⟨r, hr, hrc⟩ := hr
  have hb : Tolerant.Reads (7 - tier) (u ++ op.1 :: right.lexemes) (.binary op.1.token l (.str op.1.text) r) :=
    .binary op.strength hl (by omega) hr (by omega)
  obtain ⟨e, he, hec⟩ := hm _ _ hb
  refine ⟨e, ?_, fun left hleft => hec _ (by simp [hleft, hrc])⟩
  have hlex : (Derivation.operand op right more).lexemes = op.1 :: right.lexemes ++ more.lexemes := by
    rw [Derivation.lexemes, yield, flatMap_operator, List.flatMap_append, List.cons_append, ← Derivation.lexemes,
      ← Derivation.lexemes]
  rw [hlex, ← List.append_assoc]
  exact he

theorem parens {e : Derivation (.expression Strict.topTier)} (h : Agrees e) (l : Leaf .lparen) (r : Leaf .rparen) :
    Agrees (.parens l e r) := by
  obtain ⟨e', he, hec⟩ := h
  refine ⟨l.1, e.lexemes, r.1, e', ?_, l.2, r.2, he, hec⟩
  rw [Derivation.lexemes, yield, flatMap_leaf l (by decide), List.flatMap_append, flatMap_leaf r (by decide),
    List.flatMap_nil, ← Derivation.lexemes]

theorem block {content : Derivation .body} (h : Agrees content) (hend : content.endsInPrint = false)
    (l : Leaf .lbrace) (r : Leaf .rbrace) : Agrees (.block l content r) := by
  obtain ⟨ss, hss, hread⟩ := h
  refine ⟨.block l.1.token ss, ?_, by simp [tree, hss]⟩
  rw [Derivation.lexemes, yield, flatMap_leaf l (by decide), List.flatMap_append, flatMap_leaf r (by decide),
    List.flatMap_nil, ← Derivation.lexemes]
  refine .of_lines l.2 r.2 fun rest => hread _ (.inr r.2) fun hp => ?_
  exact absurd (hp.symm.trans hend) (by decide)

theorem assign {value : Derivation (.expression Strict.topTier)} (h : Agrees value) (x : Leaf .ident)
    (sign : Leaf .assign) : Agrees (.assign x sign value) := by
  obtain ⟨v, hv, hvc⟩ := h
  refine ⟨.assign x.1.token (.ofName x.1) v, by simp [tree, hvc], fun z rest hz _ => ?_⟩
  rw [Derivation.lexemes, yield, flatMap_leaf x (by decide), flatMap_leaf sign (by decide), ← Derivation.lexemes]
  exact .assign x.2 sign.2 hv (by decide) hz

theorem print {value : Derivation (.expression Strict.topTier)} (h : Agrees value) (x : Leaf .printWord) :
    Agrees (.print x value) := by
  obtain ⟨v, hv, hvc⟩ := h
  refine ⟨.print x.1.token v, by simp [tree, hvc], fun z rest hz hlast => ?_⟩
  rw [Derivation.lexemes, yield, flatMap_leaf x (by decide), ← Derivation.lexemes]
  exact .print x.2 hv (by decide) hz (hlast rfl)

theorem expr {e : Derivation (.expression Strict.topTier)} (h : Agrees e) : Agrees (.expr e) := by
  obtain ⟨e', he, hec⟩ := h
  refine ⟨.expr (cur e.lexemes).token e', by simp [tree, hec], fun z rest hz _ => ?_⟩
  exact .expr he (by decide) hz

theorem noLine : Agrees .noLine := ⟨[], rfl, fun _ hrest _ => .nil hrest⟩

theorem lastLine {s : Derivation .statement} (h : Agrees s) : Agrees (.lastLine s) := by
  obtain ⟨s', hs, hread⟩ := h
  refine ⟨[s'], Node.coreList_congr hs rfl, fun rest hrest hlast => ?_⟩
  have hline := ReadsLines.cons (hread [] rest (.inr ⟨rfl, hrest⟩) fun h _ => hlast h) (.nil hrest)
  rw [List.append_nil, List.append_nil] at hline
  exact hline

theorem line {s : Derivation .statement} {more : Derivation .lines} (hs : Agrees s) (hm : Agrees more)
    (nl : Leaf .newline) (hnl : IsTerminal nl.1) : Agrees (.line s nl more) := by
  obtain ⟨s', hs, hread⟩ := hs
  obtain ⟨ss, hss, hlines⟩ := hm
  obtain ⟨n, hlex⟩ := lexemes_line s hnl more
  -- the statement takes the first line feed, the others leave blank statements
  have hcore := (Node.coreList_blanks (Lexeme.mark .newline).token ss ((n + 1) / 2)).trans hss
  refine ⟨_, Node.coreList_congr hs hcore, fun rest hrest hlast => ?_⟩
  have hblank := (hlines rest hrest hlast).blanks kind_lineFeed (more.not_newline hrest) n
  rw [hlex, List.append_cons]
  exact hblank.cons (hread _ _ (.inl ⟨_, rfl, rfl⟩) fun _ h => absurd h (List.cons_ne_nil _ _))

theorem body {content : Derivation .lines} (h : Agrees content) : Agrees (.body none content) := h

theorem body_newline {content : Derivation .lines} (h : Agrees content) (nl : Leaf .newline)
    (hnl : IsTerminal nl.1) : Agrees (.body (some nl) content) := by
  obtain ⟨ss, hss, hlines⟩ := h
  obtain ⟨n, hlex⟩ := lexemes_body hnl content
  have hcore := (Node.coreList_blanks (Lexeme.mark .newline).token ss ((n + 1 + 1) / 2)).trans hss
  refine ⟨_, hcore, fun rest hrest hlast => ?_⟩
  have hblank := (hlines rest hrest hlast).blanks kind_lineFeed (content.not_newline hrest) (n + 1)
  rw [hlex]
  exact hblank

end Agrees

theorem Derivation.agrees {c : Part} (d : Derivation c) (hd : ∀ t ∈ d.yield, IsTerminal t)
    (hp : d.printsEndLines = true) : Agrees d := by
  induction d with
  | name x => exact .name x
  | number x => exact .number x
  | group e ih => exact (ih hd hp).group
  | choice x condition yes ihc ihy =>
    simp only [yield, List.forall_mem_cons, List.forall_mem_append] at hd
    obtain ⟨hpc, hpy⟩ := Bool.and_eq_true_iff.1 hp
    exact (ihc hd.2.1 hpc).choice (ihy hd.2.2 hpy) x
  | choiceElse x condition yes word no ihc ihy ihn =>
    simp only [yield, List.forall_mem_cons, List.forall_mem_append] at hd
    obtain ⟨hpc, hp⟩ := Bool.and_eq_true_iff.1 hp
    obtain ⟨hpy, hpn⟩ := Bool.and_eq_true_iff.1 hp
    exact (ihc hd.2.1 hpc).choiceElse (ihy hd.2.2.1 hpy) (ihn hd.2.2.2.2 hpn) x word
  | loop x condition inner ihc ihb =>
    simp only [yield, List.forall_mem_cons, List.forall_mem_append] at hd
    obtain ⟨hpc, hpb⟩ := Bool.and_eq_true_iff.1 hp
    exact (ihc hd.2.1 hpc).loop (ihb hd.2.2 hpb) x
  | chain head more ihh ihm =>
    simp only [yield, List.forall_mem_append] at hd
    obtain ⟨hph, hpm⟩ := Bool.and_eq_true_iff.1 hp
    exact (ihh hd.1 hph).chain (ihm hd.2 hpm)
  | stop => exact .stop
  | operand op right more ihr ihm =>
    simp only [yield, List.forall_mem_cons, List.forall_mem_append] at hd
    obtain ⟨hpr, hpm⟩ := Bool.and_eq_true_iff.1 hp
    exact (ihr hd.2.1 hpr).operand (ihm hd.2.2 hpm) op
  | parens l e r ih =>
    simp only [yield, List.forall_mem_cons, List.forall_mem_append] at hd
    exact (ih hd.2.1 hp).parens l r
  | block l content r ih =>
    simp only [yield, List.forall_mem_cons, List.forall_mem_append] at hd
    obtain ⟨hend, hpc⟩ := Bool.and_eq_true_iff.1 hp
    exact (ih hd.2.1 hpc).block (by simpa using hend) l r
  | assign x sign value ih =>
    simp only [yield, List.forall_mem_cons] at hd
    exact (ih hd.2.2 hp).assign x sign
  | print x value ih =>
    simp only [yield, List.forall_mem_cons] at hd
    exact (ih hd.2 hp).print x
  | expr e ih => exact (ih hd hp).expr
  | noLine => exact .noLine
  | lastLine s ih => exact (ih hd hp).lastLine
  | line s nl more ihs ihm =>
    simp only [yield, List.forall_mem_cons, List.forall_mem_append] at hd
    obtain ⟨hps, hpm⟩ := Bool.and_eq_true_iff.1 hp
    exact (ihs hd.1 hps).line (ihm hd.2.2 hpm) nl hd.2.1
  | body start content ih =>
    cases start with
    | none => exact (ih hd hp).body
    | some nl =>
      simp only [yield, List.forall_mem_append] at hd
      exact (ih hd.2 hp).body_newline nl (hd.1 nl.1 (by simp))

end Grammar

open Grammar

/-- In the blocks of the text, a line end stands behind each print statement. -/
def PrintsEndLines (s : String) : Prop :=
  ∃ d : Derivation .body, Splits s.toList d.yield ∧ d.printsEndLines = true

theorem core_parse_of_derivation {s : String} {d : Derivation .body} (hs : Splits s.toList d.yield)
    (hp : d.printsEndLines = true) : (Tolerant.parse s).core = (Node.root d.tree).core := by
  obtain ⟨ss, hcore, hread⟩ := d.agrees hs.isTerminal hp
  have hlex : LineLang.lexemes s.toList = d.lexemes := Strict.lexemes_of_splits hs
  rw [Tolerant.parse, hlex, Tolerant.programOf_of_lines (hread [] (.inl rfl) fun _ => rfl), Node.core_root,
    Node.core_root, hcore]

/-- A strict tree is formed without gaps. -/
theorem formed_of_parse {s : String} {t : Node} (h : Strict.parse s = .ok t) :
    ∃ ss, t = .root ss ∧ ∀ n ∈ ss, Formed (fun _ => False) .statement n := by
  obtain ⟨d, hs, rfl⟩ := Strict.parse_eq_ok_iff.1 h
  exact ⟨d.tree, rfl, d.formed hs.isTerminal⟩

theorem pruned_root {gap : Slot → Prop} {ss : List Node} (h : ∀ s ∈ ss, Formed gap .statement s)
    (hg : ¬ gap .statement) : (Node.root ss).pruned = .root ss := by
  rw [Node.pruned, Node.prunedList_eq fun s hs => ⟨(h s hs).isBlank_eq_false hg, (h s hs).pruned_eq hg⟩]

/-- Where prints end their lines, the tolerant tree without its blank statements is the strict one, apart from the
tokens of expression statements. The two have the same text. -/
theorem tolerant_agrees_with_strict {s : String} {t : Node} (h : Strict.parse s = .ok t) (hp : PrintsEndLines s) :
    (Tolerant.parse s).pruned.unlabelled = t.unlabelled ∧
      ∃ text, (Tolerant.parse s).shown = .ok text ∧ t.shown = .ok text := by
  obtain ⟨d, hs, hd⟩ := hp
  obtain ⟨d', hs', rfl⟩ := Strict.parse_eq_ok_iff.1 h
  obtain rfl := d'.unambiguous d (hs'.unique hs)
  have hcore := core_parse_of_derivation hs hd
  have hformed := d'.formed hs.isTerminal
  constructor
  · rw [Node.core, Node.core, pruned_root hformed (fun h => h)] at hcore
    exact hcore
  · obtain ⟨text, htext, -⟩ := shown_root hformed
    exact ⟨text, (Node.shown_eq_of_core_eq hcore).trans htext, htext⟩

/-- A loop that prints, with a blank line, then a statement in parentheses and a print statement at the end. -/
def loopAndPrint : Derivation .body :=
  let name (x : String) : Derivation (.expression 0) := .name (.spelt .ident x)
  let number (x : String) : Derivation (.expression 0) := .number (.spelt .num x)
  let parens (e : Derivation (.expression Strict.topTier)) : Derivation .parens :=
    .parens (.mark .lparen) e (.mark .rparen)
  let print (x : String) : Derivation .statement := .print (.mark .printWord) ((name x).raise 6)
  let lineFeed : Leaf .newline := .mark .newline
  let less : Derivation (.expression 3) :=
    .chain ((name "a").raise 2) (.operand ⟨.mark .less, by decide⟩ ((number "2").raise 2) .stop)
  let inner : Derivation .block :=
    .block (.mark .lbrace) (.body (some (.spelt .newline "\n\n  ")) (.line (print "a") lineFeed .noLine))
      (.mark .rbrace)
  .body none (.line (.expr ((Derivation.loop (.mark .whileWord) (parens (less.raise 3)) inner).raise 6)) lineFeed
    (.line (.expr ((Derivation.group (parens ((name "b").raise 6))).raise 6)) lineFeed (.lastLine (print "c"))))

theorem tolerant_agrees_with_strict_loop :
    Strict.parse "while (a < 2) \x7b\n\n  print a\n\x7d\n(b)\nprint c" = .ok (.root loopAndPrint.tree) ∧
    PrintsEndLines "while (a < 2) \x7b\n\n  print a\n\x7d\n(b)\nprint c" ∧
    (Tolerant.parse "while (a < 2) \x7b\n\n  print a\n\x7d\n(b)\nprint c").pruned.unlabelled =
      (Node.root loopAndPrint.tree).unlabelled := by
  have hs : Splits "while (a < 2) \x7b\n\n  print a\n\x7d\n(b)\nprint c".toList loopAndPrint.yield :=
    Strict.splits_iff_scan.2 ⟨by cbv, by cbv⟩
  have h := Strict.parse_eq_ok_iff.2 ⟨loopAndPrint, hs, rfl⟩
  have hp : PrintsEndLines "while (a < 2) \x7b\n\n  print a\n\x7d\n(b)\nprint c" := ⟨loopAndPrint, hs, by decide⟩
  exact ⟨h, hp, (tolerant_agrees_with_strict h hp).1⟩

end LineLang
