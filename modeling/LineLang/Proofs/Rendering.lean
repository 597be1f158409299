import LineLang.Proofs.Shape

/-!
# The terminals of a rendered tree

The text of a formed tree is cut back into the terminals that it was written from.

* `Node.words` : the terminals that a tree is written as. A statement has a line of its own, a block ends each of
  its lines, and every binary operation stands in parentheses;
* `Apart cs` : no letter or digit at the front of `cs`, so that a name or a number ends there;
* `Written text u` : `text` is cut into `u`, whatever stands apart behind it;
* `Formed.writes` : a formed tree has a text, which is cut into its words;
* `shown_root` : so has a program, and for the tolerant parser too the lexemes of that text are the words.
-/

namespace LineLang

open Strict Grammar

/-- The terminal that a token remembers. -/
def Token.lexeme (t : Token) : Lexeme :=
  match t.literal with
  | .str text => ⟨t.kind, text⟩
  | _ => ⟨t.kind, ""⟩

@[simp] theorem Lexeme.lexeme_token (t : Lexeme) : t.token.lexeme = t := rfl

namespace Node

@[simp] theorem isMissing_missing : Node.missing.isMissing = true := rfl

mutual

def words : Node → List Lexeme
  | .missing => []
  | .root statements => wordLines statements
  | .assign _ name value => words name ++ .mark .assign :: words value
  | .print _ value => .mark .printWord :: words value
  | .expr _ expression => words expression
  | .block _ statements => .mark .lbrace :: .mark .newline :: (wordLines statements ++ [.mark .rbrace])
  | .cond _ condition yes no =>
    .mark .ifWord :: .mark .lparen :: (words condition ++ .mark .rparen ::
      (words yes ++ if no.isMissing then [] else .mark .elseWord :: words no))
  | .loop _ condition body =>
    .mark .whileWord :: .mark .lparen :: (words condition ++ .mark .rparen :: words body)
  | .ident token _ => [token.lexeme]
  | .int token _ => [token.lexeme]
  | .binary token left _ right =>
    .mark .lparen :: (words left ++ token.lexeme :: (words right ++ [.mark .rparen]))
  | .unary token _ right => .mark .lparen :: token.lexeme :: (words right ++ [.mark .rparen])

/-- The terminals of some lines; a blank statement has none. -/
def wordLines : List Node → List Lexeme
  | [] => []
  | s :: ss => if s.isBlank then wordLines ss else words s ++ .mark .newline :: wordLines ss

end

end Node

-- the proofs below all open these two, so their equations are made here and not by each of them
attribute [local simp] Node.words Node.wordLines

/-! ## Cutting -/

def Apart (cs : List Char) : Prop := ∀ c ∈ cs.head?, isLetter c = false ∧ isDigit c = false

/-- A line end is over in front of `cs`. -/
def Fresh (cs : List Char) : Prop := ∀ c ∈ cs.head?, isLayout c = false

namespace Strict.Splits

variable {cs : List Char} {ts : List Lexeme}

theorem space (h : Splits cs ts) : Splits (' ' :: cs) ts := by
  show Splits ([' '] ++ cs) ts
  exact h.gap (List.all_eq_true.1 rfl)

/-- A name, a keyword or a number. -/
theorem run {x : Lexeme} {c : Char} {xs : List Char} (hx : IsTerminal x) (hc : x.text.toList = c :: xs)
    (hr : isLetter c = true ∨ isDigit c = true) (ha : Apart cs) (h : Splits cs ts) :
    Splits (x.text.toList ++ cs) (x :: ts) := by
  have hw : String.ofList (c :: xs) = x.text := by rw [← hc, String.ofList_toList]
  have ht : terminal? c (xs ++ cs) = some x := by
    unfold terminal?
    rcases hr with hl | hd
    · obtain ⟨hxs, hk⟩ := hx.letters hc hl
      rw [if_pos hl, takeWhile_run hxs fun y hy => (ha y hy).1, hw]
      show some ⟨Kind.ofWord x.text, x.text⟩ = some x
      rw [← hk]
    · obtain ⟨hxs, hk⟩ := hx.digits hc hd
      rw [if_neg (by rw [not_letter_of_digit hd]; exact Bool.false_ne_true), if_pos hd,
        takeWhile_run hxs fun y hy => (ha y hy).2, hw, ← hk]
  rw [hc, List.cons_append]
  refine .cons ht ?_
  rw [hc, List.length_cons, Nat.add_sub_cancel, List.drop_left]
  exact h

theorem name {x : Lexeme} (hx : IsTerminal x) (hk : x.kind = .ident ∨ x.kind = .num) (ha : Apart cs)
    (h : Splits cs ts) : Splits (x.text.toList ++ cs) (x :: ts) := by
  obtain ⟨c, xs, hc, hcase⟩ := hx.cases
  refine run hx hc ?_ ha h
  rcases hcase with ⟨hl, -⟩ | ⟨hd, -⟩ | ⟨-, -, hn⟩ | hs
  · exact .inl hl
  · exact .inr hd
  · rcases hk with hk | hk <;> cases hk.symm.trans hn
  · have no : ∀ p ∈ symbols, p.2 ≠ .ident ∧ p.2 ≠ .num := by decide
    rcases hk with hk | hk
    · exact absurd hk (no _ hs).1
    · exact absurd hk (no _ hs).2

theorem lparen (h : Splits cs ts) : Splits ('(' :: cs) (.mark .lparen :: ts) := .cons rfl h

theorem rparen (h : Splits cs ts) : Splits (')' :: cs) (.mark .rparen :: ts) := .cons rfl h

theorem lbrace (h : Splits cs ts) : Splits ('\x7b' :: cs) (.mark .lbrace :: ts) := .cons rfl h

theorem rbrace (h : Splits cs ts) : Splits ('\x7d' :: cs) (.mark .rbrace :: ts) := .cons rfl h

theorem spaced {k : Kind} (hk : k ∉ [Kind.ident, .num, .newline, .comma, .illegal, .eof]) (h : Splits cs ts) :
    Splits (k.spelling.toList ++ ' ' :: cs) (.mark k :: ts) := by
  cases k with
  | ident => exact absurd (by simp) hk
  | num => exact absurd (by simp) hk
  | newline => exact absurd (by simp) hk
  | comma => exact absurd (by simp) hk
  | illegal => exact absurd (by simp) hk
  | eof => exact absurd (by simp) hk
  | _ => exact .cons rfl h.space

theorem newline (hf : Fresh cs) (h : Splits cs ts) : Splits ('\n' :: cs) (.mark .newline :: ts) := by
  have ht : terminal? '\n' cs = some (.mark .newline) := by
    have hw : ([] ++ cs).takeWhile isLayout = [] := takeWhile_run (by simp) hf
    rw [List.nil_append] at hw
    unfold terminal?
    rw [if_neg (by decide), if_neg (by decide), if_pos rfl, hw]
    rfl
  exact .cons ht h

end Strict.Splits

/-! ## Writing -/

def Written (text : String) (u : List Lexeme) : Prop :=
  ∀ {rest : List Char} {ts : List Lexeme}, Apart rest → Splits rest ts → Splits (text.toList ++ rest) (u ++ ts)

/-- The text begins, and not with a blank or a line feed. -/
def Solid (text : String) : Prop := ∃ c cs, text.toList = c :: cs ∧ isLayout c = false

/-- A tree has a text, cut into its words. Only a missing tree and a blank statement have an empty one. -/
def Writes (n : Node) : Prop :=
  ∃ text, n.render = .ok text ∧ Written text n.words ∧
    (if n.isMissing || n.isBlank then text = "" else Solid text)

theorem apart_cons {c : Char} {cs : List Char} (h : (isLetter c || isDigit c) = false) : Apart (c :: cs) := by
  rintro d ⟨⟩
  exact Bool.or_eq_false_iff.1 h

theorem Writes.of_solid {n : Node} {text : String} (hr : n.render = .ok text) (hw : Written text n.words)
    (hs : Solid text) (hn : (n.isMissing || n.isBlank) = false) : Writes n :=
  ⟨text, hr, hw, by rw [hn]; exact hs⟩

theorem isMissing_or_isBlank {gap : Slot → Prop} {n : Node} (h : Formed gap .expression n) :
    (n.isMissing || n.isBlank) = false := by
  cases h <;> rfl

theorem Strict.IsTerminal.solid {x : Lexeme} (hx : IsTerminal x) (hk : x.kind ≠ .newline) : Solid x.text := by
  obtain ⟨c, cs, hc, hcase⟩ := hx.cases
  refine ⟨c, cs, hc, ?_⟩
  have hn : c ≠ '\n' := by
    rintro rfl
    exact hk (hx.lineEnd hc).2
  simp [isLayout, hn, (hx.start hc).1]

/-- The lines of formed statements. -/
theorem renderLines_written {ss : List Node} (h : ∀ s ∈ ss, s.isMissing = false ∧ Writes s) :
    ∃ text, Node.renderLines ss = .ok text ∧ ∀ {rest : List Char} {ts : List Lexeme}, Fresh rest → Splits rest ts →
      Fresh (text.toList ++ rest) ∧ Splits (text.toList ++ rest) (Node.wordLines ss ++ ts) := by
  induction ss with
  | nil => exact ⟨"", rfl, fun hf hs => ⟨hf, hs⟩⟩
  | cons s ss ih =>
    obtain ⟨⟨hm, line, hr, hw, hline⟩, hss⟩ := List.forall_mem_cons.1 h
    obtain ⟨lines, hl, hlines⟩ := ih hss
    rw [hm, Bool.false_or] at hline
    have hrender : Node.renderLines (s :: ss) = .ok (if line = "" then lines else line ++ "\n" ++ lines) := by
      simp [Node.renderLines, Node.marked, hm, hr, hl, bind, Except.bind, pure, Except.pure]
    refine ⟨_, hrender, fun hf hs => ?_⟩
    obtain ⟨hfresh, hsplit⟩ := hlines hf hs
    by_cases hb : s.isBlank = true
    · rw [if_pos hb] at hline
      rw [if_pos hline, Node.wordLines, if_pos hb]
      exact ⟨hfresh, hsplit⟩
    · rw [if_neg hb] at hline
      obtain ⟨c, cs, hc, hsolid⟩ := hline
      have hne : line ≠ "" := by
        rintro rfl
        cases hc
      rw [if_neg hne, Node.wordLines, if_neg hb]
      simp only [String.toList_append, List.append_assoc]
      constructor
      · rw [hc]
        rintro d ⟨⟩
        exact hsolid
      · exact hw (apart_cons (by decide)) (hsplit.newline hfresh)

theorem Solid.of_head {text : String} {c : Char} (h : text.toList.head? = some c) (hc : isLayout c = false) :
    Solid text := by
  obtain ⟨cs, hcs⟩ := List.head?_eq_some_iff.1 h
  exact ⟨c, cs, hcs, hc⟩

theorem notWord_of_tier {k : Kind} (h : (tier? k).isSome = true) :
    k ∉ [Kind.ident, .num, .newline, .comma, .illegal, .eof] := by
  rintro hk
  simp only [List.mem_cons, List.not_mem_nil, or_false] at hk
  rcases hk with rfl | rfl | rfl | rfl | rfl | rfl <;> cases h

theorem Formed.isMissing_statement {gap : Slot → Prop} {n : Node} (h : Formed gap .statement n) :
    n.isMissing = false := by
  cases h <;> rfl

namespace Writes

variable {x : Lexeme} {c y n b v : Node}

theorem name (hx : IsTerminal x) (hk : x.kind = .ident) : Writes (.ofName x) :=
  .of_solid rfl (fun ha hs => hs.name hx (.inl hk) ha) (hx.solid (by simp [hk])) rfl

theorem number (hx : IsTerminal x) (hk : x.kind = .num) : Writes (Tolerant.integer x) :=
  .of_solid rfl (fun ha hs => hs.name hx (.inr hk) ha) (hx.solid (by simp [hk])) rfl

theorem binary {k : Kind} {l r : Node} (hk : (tier? k).isSome = true) (hl : Writes l) (hr : Writes r) :
    Writes (.binary (Lexeme.mark k).token l (.str (Lexeme.mark k).text) r) := by
  obtain ⟨lt, hlr, hlw, -⟩ := hl
  obtain ⟨rt, hrr, hrw, -⟩ := hr
  have hrender : (Node.binary (Lexeme.mark k).token l (.str (Lexeme.mark k).text) r).render =
      .ok ("(" ++ lt ++ " " ++ k.spelling ++ " " ++ rt ++ ")") := by
    simp [Node.render, hlr, hrr, bind, Except.bind, pure, Except.pure, Json.shown_str, Lexeme.mark]
  refine .of_solid hrender (fun ha hs => ?_) (.of_head (c := '(') (by simp) (by decide)) rfl
  have hright := (hrw (apart_cons (by decide)) hs.rparen).spaced (notWord_of_tier hk)
  have hleft := hlw (apart_cons (by decide)) hright.space
  simpa using hleft.lparen

theorem choice (hc : Writes c) (hy : Writes y) (hym : y.isMissing = false) :
    Writes (.cond (Lexeme.mark .ifWord).token c y .missing) := by
  obtain ⟨ct, hcr, hcw, -⟩ := hc
  obtain ⟨yt, hyr, hyw, -⟩ := hy
  have hrender : (Node.cond (Lexeme.mark .ifWord).token c y .missing).render = .ok ("if (" ++ ct ++ ") " ++ yt) := by
    simp [Node.render, Node.marked, hcr, hyr, hym, Node.isMissing_missing, bind, Except.bind, pure, Except.pure]
  refine .of_solid hrender (fun ha hs => ?_) (.of_head (c := 'i') (by simp) (by decide)) rfl
  have hcond := hcw (apart_cons (by decide)) (hyw ha hs).space.rparen
  simpa [Kind.spelling] using hcond.lparen.spaced (k := .ifWord) (by decide)

theorem choiceElse (hc : Writes c) (hy : Writes y) (hym : y.isMissing = false) (hn : Writes n)
    (hnm : n.isMissing = false) : Writes (.cond (Lexeme.mark .ifWord).token c y n) := by
  obtain ⟨ct, hcr, hcw, -⟩ := hc
  obtain ⟨yt, hyr, hyw, -⟩ := hy
  obtain ⟨nt, hnr, hnw, -⟩ := hn
  have hrender : (Node.cond (Lexeme.mark .ifWord).token c y n).render =
      .ok ("if (" ++ ct ++ ") " ++ yt ++ " else " ++ nt) := by
    simp [Node.render, Node.marked, hcr, hyr, hnr, hym, hnm, bind, Except.bind, pure, Except.pure]
  refine .of_solid hrender (fun ha hs => ?_) (.of_head (c := 'i') (by simp) (by decide)) rfl
  have helse := ((hnw ha hs).spaced (k := .elseWord) (by decide)).space
  have hyes := (hyw (apart_cons (by decide)) helse).space.rparen
  have hcond := hcw (apart_cons (by decide)) hyes
  simpa [hnm, Kind.spelling] using hcond.lparen.spaced (k := .ifWord) (by decide)

theorem loop (hc : Writes c) (hb : Writes b) (hbm : b.isMissing = false) :
    Writes (.loop (Lexeme.mark .whileWord).token c b) := by
  obtain ⟨ct, hcr, hcw, -⟩ := hc
  obtain ⟨bt, hbr, hbw, -⟩ := hb
  have hrender : (Node.loop (Lexeme.mark .whileWord).token c b).render = .ok ("while (" ++ ct ++ ") " ++ bt) := by
    simp [Node.render, Node.marked, hcr, hbr, hbm, bind, Except.bind, pure, Except.pure]
  refine .of_solid hrender (fun ha hs => ?_) (.of_head (c := 'w') (by simp) (by decide)) rfl
  have hcond := hcw (apart_cons (by decide)) (hbw ha hs).space.rparen
  simpa [Kind.spelling] using hcond.lparen.spaced (k := .whileWord) (by decide)

theorem block {ss : List Node} (h : ∀ s ∈ ss, s.isMissing = false ∧ Writes s) :
    Writes (.block (Lexeme.mark .lbrace).token ss) := by
  obtain ⟨lines, hl, hlines⟩ := renderLines_written h
  have hrender : (Node.block (Lexeme.mark .lbrace).token ss).render = .ok ("\x7b\n" ++ lines ++ "\x7d") := by
    simp [Node.render, hl, bind, Except.bind, pure, Except.pure]
  refine .of_solid hrender (fun ha hs => ?_) (.of_head (c := '\x7b') (by simp) (by decide)) rfl
  obtain ⟨hfresh, hsplit⟩ := hlines (by rintro c ⟨⟩; decide) hs.rbrace
  simpa using (hsplit.newline hfresh).lbrace

theorem assign (hx : IsTerminal x) (hk : x.kind = .ident) (hv : Writes v) :
    Writes (.assign x.token (.ofName x) v) := by
  obtain ⟨vt, hvr, hvw, -⟩ := hv
  have hrender : (Node.assign x.token (.ofName x) v).render = .ok (x.text ++ " = " ++ vt) := by
    simp [Node.render, Node.marked, Node.ofName, Node.isMissing, Node.textOf, hvr, bind, Except.bind, pure,
      Except.pure]
  obtain ⟨c, cs, hc, hsolid⟩ := hx.solid (by simp [hk])
  refine .of_solid hrender (fun ha hs => ?_) ⟨c, cs ++ (" = " ++ vt).toList, by simp [hc], hsolid⟩ rfl
  have hvalue := ((hvw ha hs).spaced (k := .assign) (by decide)).space
  simpa [Node.ofName, Kind.spelling] using hvalue.name hx (.inl hk) (apart_cons (by decide))

theorem print (hv : Writes v) : Writes (.print (Lexeme.mark .printWord).token v) := by
  obtain ⟨vt, hvr, hvw, -⟩ := hv
  have hrender : (Node.print (Lexeme.mark .printWord).token v).render = .ok ("print " ++ vt) := by
    simp [Node.render, hvr, bind, Except.bind, pure, Except.pure]
  refine .of_solid hrender (fun ha hs => ?_) (.of_head (c := 'p') (by simp) (by decide)) rfl
  simpa [Kind.spelling] using (hvw ha hs).spaced (k := .printWord) (by decide)

theorem expr {gap : Slot → Prop} {s : Slot} {e : Node} (t : Token) (h : Writes e) (he : Formed gap (.place s) e) :
    Writes (.expr t e) := by
  obtain ⟨text, hr, hw, htext⟩ := h
  refine ⟨text, hr, hw, ?_⟩
  cases he with
  | empty _ => exact htext
  | placed he =>
    rw [isMissing_or_isBlank he] at htext
    rw [Node.isBlank_expr he.ne_missing]
    exact htext

end Writes

/-- A formed tree is written as its words. -/
theorem Formed.writes {gap : Slot → Prop} {r : Role} {n : Node} (h : Formed gap r n) : Writes n := by
  induction h with
  | empty _ => exact ⟨"", rfl, fun _ hs => hs, rfl⟩
  | placed _ ih => exact ih
  | name hx hk => exact .name hx hk
  | number hx hk => exact .number hx hk
  | binary hk _ _ ihl ihr => exact .binary hk ihl ihr
  | choice _ hy ihc ihy => exact .choice ihc ihy hy.isMissing_block
  | choiceElse _ hy hn ihc ihy ihn => exact .choiceElse ihc ihy hy.isMissing_block ihn hn.isMissing_block
  | loop _ hb ihc ihb => exact .loop ihc ihb hb.isMissing_block
  | block h ih => exact .block fun s hs => ⟨(h s hs).isMissing_statement, ih s hs⟩
  | assign hx hk _ ih => exact .assign hx hk ih
  | print _ ih => exact .print ih
  | expr t he ih => exact .expr t ih he

/-! ## Words and lexemes -/

/-- The only line ends among the words are single line feeds. -/
theorem pieces_mark (k : Kind) : pieces (.mark k) = [.mark k] := by
  by_cases hk : k = .newline
  · subst hk
    rfl
  · exact if_neg hk

theorem flatMap_wordLines {ss : List Node} (h : ∀ s ∈ ss, s.words.flatMap pieces = s.words) :
    (Node.wordLines ss).flatMap pieces = Node.wordLines ss := by
  induction ss with
  | nil => rfl
  | cons s ss ih =>
    obtain ⟨hs, hss⟩ := List.forall_mem_cons.1 h
    rw [Node.wordLines]
    split
    · exact ih hss
    · simp only [List.flatMap_append, List.flatMap_cons, hs, pieces_mark, ih hss, List.singleton_append]

theorem Formed.flatMap_words {gap : Slot → Prop} {r : Role} {n : Node} (h : Formed gap r n) :
    n.words.flatMap pieces = n.words := by
  have word : ∀ {x : Lexeme}, x.kind ≠ .newline → pieces x = [x] := fun hx => if_neg hx
  induction h with
  | empty _ => rfl
  | placed _ ih => exact ih
  | name _ hk => simp [Node.ofName, word, hk]
  | number _ hk => simp [Tolerant.integer, word, hk]
  | binary _ _ _ ihl ihr => simp [pieces_mark, ihl, ihr]
  | choice _ _ ihc ihy => simp [pieces_mark, ihc, ihy]
  | choiceElse _ _ hn ihc ihy ihn => simp [pieces_mark, hn.isMissing_block, ihc, ihy, ihn]
  | loop _ _ ihc ihb => simp [pieces_mark, ihc, ihb]
  | block _ ih => simp [pieces_mark, flatMap_wordLines ih]
  | assign _ hk _ ih => simp [Node.ofName, pieces_mark, word, hk, ih]
  | print _ ih => simp [pieces_mark, ih]
  | expr _ _ ih => exact ih

/-- A program of formed statements has a text, and both scanners cut it into the words of its lines. -/
theorem shown_root {gap : Slot → Prop} {ss : List Node} (h : ∀ s ∈ ss, Formed gap .statement s) :
    ∃ text, (Node.root ss).shown = .ok text ∧ Splits text.toList (Node.wordLines ss) ∧
      lexemes text.toList = Node.wordLines ss := by
  obtain ⟨text, hr, hlines⟩ := renderLines_written fun s hs => ⟨(h s hs).isMissing_statement, (h s hs).writes⟩
  have hend : Splits [] [] := .done (by simp)
  have hs : Splits text.toList (Node.wordLines ss) := by
    simpa using (hlines (by simp [Fresh]) hend).2
  refine ⟨text, hr, hs, ?_⟩
  rw [lexemes_of_splits hs, flatMap_wordLines fun s hs => (h s hs).flatMap_words]

end LineLang
