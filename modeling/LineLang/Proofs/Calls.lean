import LineLang.Proofs.Terminals
import LineLang.Tree.Tolerant

/-!
# Calls of the tolerant parser

A parser that reads its lexemes one at a time sees only two of them. It is a set of methods that call each other,
and all of them move by one method, which passes a lexeme.

* `lexemeAt s i` : the lexeme of a text behind `i` others, `Lexeme.eof` behind the last one;
* `Window` : the two lexemes in view, and the place in the text from which the next one is taken;
* `Call` : a method with its arguments, or a loop inside one;
* `Does c w r w'` : the call `c` at `w` returns `r` and leaves the window at `w'`. There is one rule for each way
  through a method;
* `Window.pass_shows` : behind `i` lexemes the window shows the lexemes `i` and `i + 1` of the text;
* `Moves w ts w' ts'` : some lexemes are passed, and nothing else happens to the window;
* `returns` : every call returns, wherever it is made, and only moves.
-/

namespace LineLang

open Strict (lexemes_of_nil lexemes_of_cons)

def lexemeAt (s : String) (i : Nat) : Lexeme := (lexemes s.toList).getD i .eof

/-! ## Lexemes one by one -/

theorem scan_fst (cs : List Char) : (scan cs).1 = (lexemes cs).headD .eof := by
  unfold scan
  split
  · next h => rw [lexemes_of_nil h]; rfl
  · next c rest h =>
    rw [lexemes_of_cons h]
    by_cases hc : c = nul
    · rw [if_pos hc, if_pos hc]; rfl
    · rw [if_neg hc, if_neg hc]; rfl

theorem lexemes_scan (cs : List Char) : lexemes (scan cs).2 = (lexemes cs).tail := by
  unfold scan
  split
  · next h => rw [lexemes_of_nil h, lexemes_of_nil rfl]; rfl
  · next c rest h =>
    rw [lexemes_of_cons h]
    by_cases hc : c = nul
    · have hgap : (c :: rest).dropWhile isGap = c :: rest := by
        rw [hc]; rfl
      rw [if_pos hc, if_pos hc, lexemes_of_cons hgap, if_pos hc]; rfl
    · rw [if_neg hc, if_neg hc]; rfl

/-- Where no lexeme is left, taking one skips the blanks and then stays in place. -/
theorem scan_scan {cs : List Char} (h : lexemes cs = []) : scan (scan cs).2 = (.eof, (scan cs).2) := by
  cases hd : cs.dropWhile isGap with
  | nil =>
    have hs : scan cs = (.eof, []) := by rw [scan, hd]
    rw [hs]; rfl
  | cons c rest =>
    by_cases hc : c = nul
    · subst hc
      have hs : scan cs = (.eof, nul :: rest) := by rw [scan, hd]; rfl
      rw [hs]; rfl
    · rw [lexemes_of_cons hd, if_neg hc] at h
      cases h

theorem Cursor.next_next {c : Cursor} (h : lexemes c.rest = []) : c.next.2.next = (.eof, c.next.2) := by
  simp [Cursor.next, Cursor.moveTo, scan_scan h]

namespace Tolerant

/-! ## The window -/

/-- What a parser has in view: the current lexeme, the one behind it, and the place where the next is taken. -/
structure Window where
  cur : Lexeme
  peek : Lexeme
  rest : Cursor

namespace Window

def next (w : Window) : Window := ⟨w.peek, w.rest.next.1, w.rest.next.2⟩

/-- The window before the first lexeme of a text is taken. -/
def blank (s : String) : Window := ⟨.eof, .eof, .start s⟩

/-- The window on the first two lexemes of a text. -/
def start (s : String) : Window := (blank s).next.next

/-- The window `k` lexemes further on. -/
def pass (w : Window) : Nat → Window
  | 0 => w
  | k + 1 => (w.pass k).next

theorem pass_pass (w : Window) (j k : Nat) : (w.pass j).pass k = w.pass (j + k) := by
  induction k with
  | zero => rfl
  | succ k ih => rw [pass, ih]; rfl

/-- The lexemes from the current one on are `ts`. -/
structure Shows (w : Window) (ts : List Lexeme) : Prop where
  cur : w.cur = Tolerant.cur ts
  peek : w.peek = Tolerant.peek ts
  rest : lexemes w.rest.rest = ts.drop 2

variable {w : Window} {ts : List Lexeme}

theorem Shows.next (h : w.Shows ts) : w.next.Shows ts.tail where
  cur := h.peek
  peek := by
    have h₁ : w.next.peek = (lexemes w.rest.rest).headD .eof := scan_fst _
    rw [h₁, h.rest, Tolerant.peek, ← List.drop_one (l := ts), List.tail_drop]
  rest := by
    have h₁ : lexemes w.next.rest.rest = (lexemes w.rest.rest).tail := lexemes_scan _
    rw [h₁, h.rest, List.tail_drop, List.drop_tail]

theorem Shows.pass (h : w.Shows ts) (k : Nat) : (w.pass k).Shows (ts.drop k) := by
  induction k with
  | zero => exact h
  | succ k ih =>
    have hk := ih.next
    rwa [List.tail_drop] at hk

theorem blank_shows (s : String) : (blank s).Shows (.eof :: .eof :: Parser.start s) := ⟨rfl, rfl, rfl⟩

theorem start_shows (s : String) : (start s).Shows (Parser.start s) := (blank_shows s).next.next

/-- Behind `i` lexemes of a text the window shows the lexemes `i` and `i + 1`. -/
theorem pass_shows (s : String) (i : Nat) :
    ((start s).pass i).cur = lexemeAt s i ∧ ((start s).pass i).peek = lexemeAt s (i + 1) := by
  have h := (start_shows s).pass i
  refine ⟨h.cur.trans ?_, h.peek.trans ?_⟩
  · simp [Tolerant.cur, Parser.start, lexemeAt, List.headD_eq_head?_getD, List.getD_eq_getElem?_getD]
  · simp [Tolerant.peek, Parser.start, lexemeAt, List.headD_eq_head?_getD, List.getD_eq_getElem?_getD]

theorem next_next_next (h : lexemes w.rest.rest = []) : w.next.next.next = w.next.next := by
  have hpeek : w.rest.next.1 = .eof := by
    rw [Cursor.next, scan_fst, h]; rfl
  simp [Window.next, Cursor.next_next h, hpeek]

/-- At the end of a text the window does not move any more. -/
theorem pass_of_length_le {s : String} {i : Nat} (h : (Parser.start s).length ≤ i) :
    (start s).pass i = (start s).pass (Parser.start s).length := by
  have hstep : ∀ j, (Parser.start s).length ≤ j → (start s).pass (j + 1) = (start s).pass j := by
    intro j hj
    have hstart : ∀ k, (start s).pass k = ((blank s).pass k).next.next := fun k => by
      rw [show (start s) = (blank s).pass 2 from rfl, pass_pass, Nat.add_comm]; rfl
    have hrest := ((blank_shows s).pass j).rest
    rw [List.drop_drop, Nat.add_comm] at hrest
    rw [hstart, hstart]
    exact next_next_next (hrest.trans (List.drop_eq_nil_of_le (by simp; omega)))
  obtain ⟨k, rfl⟩ := Nat.exists_eq_add_of_le h
  clear h
  induction k with
  | zero => rfl
  | succ k ih => rw [← ih]; exact hstep _ (Nat.le_add_right _ k)

end Window

/-! ## Calls -/

/-- A method that reads an operand. -/
inductive Operand where
  | name | number | parenthesised | choice | loop

/-- The method for an operand that begins with a lexeme of the given kind. -/
def Operand.ofKind? : Kind → Option Operand
  | .ident => some .name
  | .num => some .number
  | .lparen => some .parenthesised
  | .ifWord => some .choice
  | .whileWord => some .loop
  | _ => none

/-- A method of the parser with its arguments, or a part that several of them share: `operators` is the loop of
`expression`, `clause` the beginning of a choice and of a loop, `lines` the loop of a program and, up to a closing
brace, of a block, and `restOfLine` the loop of a print statement. -/
inductive Call where
  | next
  | expect (k : Kind)
  | program | statement | assignment | printing | expressionStatement | block
  | expression (p : Int)
  | operand (o : Operand)
  | operation (left : Node)
  | operators (p : Int) (left : Node)
  | clause
  | lines (braced : Bool)
  | restOfLine

abbrev Call.Result : Call → Type
  | .next | .restOfLine => Unit
  | .expect _ => Bool
  | .clause => Option (Node × Node)
  | .lines _ => List Node
  | _ => Node

open Call

/-- The call at the first window returns the result and leaves the second window. -/
inductive Does : (c : Call) → Window → c.Result → Window → Prop where
  | next {w} : Does .next w () w.next
  | expect {k w} (h : w.peek.kind = k) : Does (.expect k) w true w.next
  | expectNot {k w} (h : w.peek.kind ≠ k) : Does (.expect k) w false w
  -- Statements. A statement that is missing is left out.
  | program {w w' ss} (h : Does (.lines false) w ss w') : Does .program w (.root ss) w'
  | linesEnd {braced w} (h : w.cur.kind = .eof ∨ braced = true ∧ w.cur.kind = .rbrace) :
    Does (.lines braced) w [] w
  | lines {braced w w₁ w₂ s ss} (h : ¬ (w.cur.kind = .eof ∨ braced = true ∧ w.cur.kind = .rbrace))
    (hs : Does .statement w s w₁) (hl : Does (.lines braced) w₁.next ss w₂) :
    Does (.lines braced) w (if s.isMissing then ss else s :: ss) w₂
  | statementAssign {w w' s} (h : w.cur.kind = .ident ∧ w.peek.kind = .assign) (hs : Does .assignment w s w') :
    Does .statement w s w'
  | statementPrint {w w' s} (h : w.cur.kind = .printWord) (hs : Does .printing w s w') : Does .statement w s w'
  | statementExpr {w w' s} (h : ¬ (w.cur.kind = .ident ∧ w.peek.kind = .assign)) (hp : w.cur.kind ≠ .printWord)
    (hs : Does .expressionStatement w s w') : Does .statement w s w'
  | assignment {w w₁ w₂ w₃ v b} (ha : Does (.expect .assign) w true w₁)
    (hv : Does (.expression Kind.lowest) w₁.next v w₂) (hn : Does (.expect .newline) w₂ b w₃) :
    Does .assignment w (.assign w.cur.token (.ofName w.cur) v) w₃
  | assignmentNot {w w₁} (ha : Does (.expect .assign) w false w₁) : Does .assignment w .missing w₁
  | printing {w w₁ w₂ v} (hv : Does (.expression Kind.lowest) w.next v w₁) (hl : Does .restOfLine w₁ () w₂) :
    Does .printing w (.print w.cur.token v) w₂
  | restOfLineEnd {w} (h : w.cur.kind = .newline ∨ w.cur.kind = .eof) : Does .restOfLine w () w
  | restOfLine {w w'} (h : ¬ (w.cur.kind = .newline ∨ w.cur.kind = .eof)) (hl : Does .restOfLine w.next () w') :
    Does .restOfLine w () w'
  | expressionStatement {w w₁ w₂ e b} (he : Does (.expression Kind.lowest) w e w₁)
    (hn : Does (.expect .newline) w₁ b w₂) : Does .expressionStatement w (.expr w.cur.token e) w₂
  | block {w w' ss} (h : Does (.lines true) w.next ss w') : Does .block w (.block w.cur.token ss) w'
  -- Expressions. An operator is taken while it binds more tightly than `p`.
  | expressionNot {p w} (h : Operand.ofKind? w.cur.kind = none) : Does (.expression p) w .missing w
  | expression {p w w₁ w₂ o left e} (h : Operand.ofKind? w.cur.kind = some o) (ho : Does (.operand o) w left w₁)
    (he : Does (.operators p left) w₁ e w₂) : Does (.expression p) w e w₂
  | operatorsEnd {p left w} (h : w.peek.kind = .newline ∨ w.peek.kind.strength ≤ p ∨ w.peek.kind.strength? = none) :
    Does (.operators p left) w left w
  | operators {p left w w₁ w₂ e e'}
    (h : ¬ (w.peek.kind = .newline ∨ w.peek.kind.strength ≤ p ∨ w.peek.kind.strength? = none))
    (ho : Does (.operation left) w.next e w₁) (he : Does (.operators p e) w₁ e' w₂) :
    Does (.operators p left) w e' w₂
  | operation {left w w' right} (h : Does (.expression w.cur.kind.strength) w.next right w') :
    Does (.operation left) w (.binary w.cur.token left (.str w.cur.text) right) w'
  | name {w} : Does (.operand .name) w (.ofName w.cur) w
  | number {w} : Does (.operand .number) w (integer w.cur) w
  | parenthesised {w w₁ w₂ e b} (he : Does (.expression Kind.lowest) w.next e w₁)
    (hb : Does (.expect .rparen) w₁ b w₂) : Does (.operand .parenthesised) w (if b then e else .missing) w₂
  | clauseNot {w w₁} (hl : Does (.expect .lparen) w false w₁) : Does .clause w none w₁
  | clauseOpen {w w₁ w₂ w₃ e} (hl : Does (.expect .lparen) w true w₁)
    (he : Does (.expression Kind.lowest) w₁.next e w₂) (hr : Does (.expect .rparen) w₂ false w₃) :
    Does .clause w none w₃
  | clauseBare {w w₁ w₂ w₃ w₄ e} (hl : Does (.expect .lparen) w true w₁)
    (he : Does (.expression Kind.lowest) w₁.next e w₂) (hr : Does (.expect .rparen) w₂ true w₃)
    (hb : Does (.expect .lbrace) w₃ false w₄) : Does .clause w none w₄
  | clause {w w₁ w₂ w₃ w₄ w₅ e body} (hl : Does (.expect .lparen) w true w₁)
    (he : Does (.expression Kind.lowest) w₁.next e w₂) (hr : Does (.expect .rparen) w₂ true w₃)
    (hb : Does (.expect .lbrace) w₃ true w₄) (hs : Does .block w₄ body w₅) : Does .clause w (some (e, body)) w₅
  | choiceNot {w w₁} (h : Does .clause w none w₁) : Does (.operand .choice) w .missing w₁
  | choice {w w₁ w₂ e yes} (h : Does .clause w (some (e, yes)) w₁) (hx : Does (.expect .elseWord) w₁ false w₂) :
    Does (.operand .choice) w (.cond w.cur.token e yes .missing) w₂
  | choiceElseNot {w w₁ w₂ w₃ e yes} (h : Does .clause w (some (e, yes)) w₁)
    (hx : Does (.expect .elseWord) w₁ true w₂) (hb : Does (.expect .lbrace) w₂ false w₃) :
    Does (.operand .choice) w .missing w₃
  | choiceElse {w w₁ w₂ w₃ w₄ e yes no} (h : Does .clause w (some (e, yes)) w₁)
    (hx : Does (.expect .elseWord) w₁ true w₂) (hb : Does (.expect .lbrace) w₂ true w₃)
    (hs : Does .block w₃ no w₄) : Does (.operand .choice) w (.cond w.cur.token e yes no) w₄
  | loopNot {w w₁} (h : Does .clause w none w₁) : Does (.operand .loop) w .missing w₁
  | loop {w w₁ e body} (h : Does .clause w (some (e, body)) w₁) :
    Does (.operand .loop) w (.loop w.cur.token e body) w₁

/-! ## Every call returns -/

def Moves (w : Window) (ts : List Lexeme) (w' : Window) (ts' : List Lexeme) : Prop :=
  ∃ k, w' = w.pass k ∧ ts' = ts.drop k

namespace Moves

variable {w w' w'' : Window} {ts ts' ts'' : List Lexeme}

theorem refl (w : Window) (ts : List Lexeme) : Moves w ts w ts := ⟨0, rfl, rfl⟩

theorem next (w : Window) (ts : List Lexeme) : Moves w ts w.next ts.tail := ⟨1, rfl, List.drop_one.symm⟩

theorem trans (h : Moves w ts w' ts') (h' : Moves w' ts' w'' ts'') : Moves w ts w'' ts'' := by
  obtain ⟨j, rfl, rfl⟩ := h
  obtain ⟨k, rfl, rfl⟩ := h'
  exact ⟨j + k, Window.pass_pass w j k, List.drop_drop⟩

theorem shows (h : Moves w ts w' ts') (hw : w.Shows ts) : w'.Shows ts' := by
  obtain ⟨k, rfl, rfl⟩ := h
  exact hw.pass k

theorem length_le (h : Moves w ts w' ts') : ts'.length ≤ ts.length := by
  obtain ⟨k, -, rfl⟩ := h
  rw [List.length_drop]
  exact Nat.sub_le _ _

end Moves

/-- The call returns at the window `w` on `ts`, having passed some lexemes. -/
def Returns (c : Call) (w : Window) (ts : List Lexeme) : Prop := ∃ r w' ts', Does c w r w' ∧ Moves w ts w' ts'

section Returns

variable {n : Nat} {w : Window} {ts : List Lexeme}

theorem Window.Shows.length_pos (h : w.Shows ts) (hk : w.cur.kind ≠ .eof) : 0 < ts.length := by
  cases ts with
  | nil => exact absurd (congrArg Lexeme.kind h.cur) hk
  | cons t ts => exact Nat.zero_lt_succ _

theorem Window.Shows.one_lt_length (h : w.Shows ts) (hk : w.peek.kind ≠ .eof) : 1 < ts.length := by
  have hpos := h.next.length_pos hk
  rw [List.length_tail] at hpos
  omega

theorem does_expect (k : Kind) (w : Window) :
    Does (.expect k) w true w.next ∧ w.peek.kind = k ∨ Does (.expect k) w false w := by
  by_cases h : w.peek.kind = k
  · exact .inl ⟨.expect h, h⟩
  · exact .inr (.expectNot h)

theorem returns_expect (k : Kind) (w : Window) (ts : List Lexeme) : Returns (.expect k) w ts := by
  obtain ⟨h, -⟩ | h := does_expect k w
  · exact ⟨true, w.next, ts.tail, h, .next w ts⟩
  · exact ⟨false, w, ts, h, .refl w ts⟩

/-- The rest of a line ends, if only with the text. -/
theorem returns_restOfLine (hw : w.Shows ts) : Returns .restOfLine w ts := by
  induction ts generalizing w with
  | nil => exact ⟨(), w, [], .restOfLineEnd (.inr (congrArg Lexeme.kind hw.cur)), .refl w []⟩
  | cons t ts ih =>
    by_cases h : w.cur.kind = .newline ∨ w.cur.kind = .eof
    · exact ⟨(), w, t :: ts, .restOfLineEnd h, .refl w _⟩
    · obtain ⟨⟨⟩, w', ts', hl, hm⟩ := ih hw.next
      exact ⟨(), w', ts', .restOfLine h hl, (Moves.next w (t :: ts)).trans hm⟩

-- Every way from a method back to itself passes a lexeme, so the methods are settled on fewer than `n` lexemes
-- first. The lemmas that follow settle them on `n` lexemes, each after those that it calls in place.
variable (ih : ∀ (c : Call) (w : Window) (ts : List Lexeme), ts.length < n → w.Shows ts → Returns c w ts)

include ih

/-- At the end of the text an expression is missing; before it the next lexeme is nearer to the end. -/
theorem returns_expression_next (p : Int) (hw : w.Shows ts) (hn : ts.length ≤ n) :
    Returns (.expression p) w.next ts.tail := by
  cases ts with
  | nil =>
    have hcur : w.next.cur = .eof := hw.next.cur
    exact ⟨.missing, w.next, [], .expressionNot (by rw [hcur]; rfl), .refl _ _⟩
  | cons t ts => exact ih _ _ _ hn hw.next

theorem returns_lines_next (braced : Bool) (hw : w.Shows ts) (hn : ts.length ≤ n) :
    Returns (.lines braced) w.next ts.tail := by
  cases ts with
  | nil =>
    have hcur : w.next.cur = .eof := hw.next.cur
    exact ⟨[], w.next, [], .linesEnd (by rw [hcur]; exact .inl rfl), .refl _ _⟩
  | cons t ts => exact ih _ _ _ hn hw.next

theorem returns_block (hw : w.Shows ts) (hn : ts.length ≤ n) : Returns .block w ts := by
  obtain ⟨ss, w', ts', hl, hm⟩ := returns_lines_next ih true hw hn
  exact ⟨.block w.cur.token ss, w', ts', .block hl, (Moves.next w ts).trans hm⟩

theorem returns_clause (hw : w.Shows ts) (hn : ts.length ≤ n) : Returns .clause w ts := by
  obtain ⟨hl, hk⟩ | hl := does_expect .lparen w
  · have hlen := hw.one_lt_length (by rw [hk]; decide)
    have hm := (Moves.next w ts).trans (.next _ _)
    obtain ⟨e, w₂, ts₂, he, hm₂⟩ := ih (.expression Kind.lowest) _ ts.tail.tail (by simp; omega) (hm.shows hw)
    have hm₂ := hm.trans hm₂
    obtain ⟨hr, -⟩ | hr := does_expect .rparen w₂
    · have hm₃ := hm₂.trans (.next _ _)
      obtain ⟨hb, hk⟩ | hb := does_expect .lbrace w₂.next
      · have hm₄ := hm₃.trans (.next _ _)
        have hlen := (hm₃.shows hw).one_lt_length (by rw [hk]; decide)
        have hle := hm₃.length_le
        obtain ⟨body, w₅, ts₅, hs, hm₅⟩ := ih .block _ _ (by simp at hlen hle ⊢; omega) (hm₄.shows hw)
        exact ⟨_, w₅, ts₅, .clause hl he hr hb hs, hm₄.trans hm₅⟩
      · exact ⟨_, _, _, .clauseBare hl he hr hb, hm₃⟩
    · exact ⟨_, _, _, .clauseOpen hl he hr, hm₂⟩
  · exact ⟨_, _, _, .clauseNot hl, .refl w ts⟩

theorem returns_choice (hw : w.Shows ts) (hn : ts.length ≤ n) : Returns (.operand .choice) w ts := by
  obtain ⟨_ | ⟨e, yes⟩, w₁, ts₁, h, hm₁⟩ := returns_clause ih hw hn
  · exact ⟨_, w₁, ts₁, .choiceNot h, hm₁⟩
  · obtain ⟨hx, hk⟩ | hx := does_expect .elseWord w₁
    · have hlen := (hm₁.shows hw).one_lt_length (by rw [hk]; decide)
      have hle := hm₁.length_le
      have hm₂ := hm₁.trans (.next _ _)
      obtain ⟨hb, -⟩ | hb := does_expect .lbrace w₁.next
      · have hm₃ := hm₂.trans (.next _ _)
        obtain ⟨no, w₄, ts₄, hs, hm₄⟩ := ih .block _ _ (by simp; omega) (hm₃.shows hw)
        exact ⟨_, w₄, ts₄, .choiceElse h hx hb hs, hm₃.trans hm₄⟩
      · exact ⟨_, _, _, .choiceElseNot h hx hb, hm₂⟩
    · exact ⟨_, _, _, .choice h hx, hm₁⟩

theorem returns_operand (o : Operand) (hw : w.Shows ts) (hn : ts.length ≤ n) : Returns (.operand o) w ts := by
  cases o with
  | name => exact ⟨_, w, ts, .name, .refl w ts⟩
  | number => exact ⟨_, w, ts, .number, .refl w ts⟩
  | parenthesised =>
    obtain ⟨e, w₁, ts₁, he, hm₁⟩ := returns_expression_next ih Kind.lowest hw hn
    obtain ⟨b, w₂, ts₂, hb, hm₂⟩ := returns_expect .rparen w₁ ts₁
    exact ⟨_, w₂, ts₂, .parenthesised he hb, ((Moves.next w ts).trans hm₁).trans hm₂⟩
  | choice => exact returns_choice ih hw hn
  | loop =>
    obtain ⟨_ | ⟨e, body⟩, w₁, ts₁, h, hm₁⟩ := returns_clause ih hw hn
    · exact ⟨_, w₁, ts₁, .loopNot h, hm₁⟩
    · exact ⟨_, w₁, ts₁, .loop h, hm₁⟩

theorem returns_operators (p : Int) (left : Node) (hw : w.Shows ts) (hn : ts.length ≤ n) :
    Returns (.operators p left) w ts := by
  by_cases h : w.peek.kind = .newline ∨ w.peek.kind.strength ≤ p ∨ w.peek.kind.strength? = none
  · exact ⟨left, w, ts, .operatorsEnd h, .refl w ts⟩
  · have hpeek : w.peek.kind ≠ .eof := fun hk => h (.inr (.inr (by rw [hk]; rfl)))
    have hlen := hw.one_lt_length hpeek
    obtain ⟨e, w₁, ts₁, ho, hm₁⟩ := ih (.operation left) w.next ts.tail (by simp; omega) hw.next
    have hle := hm₁.length_le
    obtain ⟨e', w₂, ts₂, he, hm₂⟩ := ih (.operators p e) w₁ ts₁ (by simp at hle; omega) (hm₁.shows hw.next)
    exact ⟨e', w₂, ts₂, .operators h ho he, ((Moves.next w ts).trans hm₁).trans hm₂⟩

theorem returns_expression (p : Int) (hw : w.Shows ts) (hn : ts.length ≤ n) : Returns (.expression p) w ts := by
  cases ho : Operand.ofKind? w.cur.kind with
  | none => exact ⟨.missing, w, ts, .expressionNot ho, .refl w ts⟩
  | some o =>
    obtain ⟨left, w₁, ts₁, hl, hm₁⟩ := returns_operand ih o hw hn
    obtain ⟨e, w₂, ts₂, he, hm₂⟩ :=
      returns_operators ih p left (hm₁.shows hw) (Nat.le_trans hm₁.length_le hn)
    exact ⟨e, w₂, ts₂, .expression ho hl he, hm₁.trans hm₂⟩

theorem returns_assignment (hw : w.Shows ts) (hn : ts.length ≤ n) : Returns .assignment w ts := by
  obtain ⟨ha, -⟩ | ha := does_expect .assign w
  · have hm := (Moves.next w ts).trans (.next _ _)
    obtain ⟨v, w₂, ts₂, hv, hm₂⟩ := returns_expression ih Kind.lowest (hm.shows hw) (by simp; omega)
    obtain ⟨b, w₃, ts₃, hb, hm₃⟩ := returns_expect .newline w₂ ts₂
    exact ⟨_, w₃, ts₃, .assignment ha hv hb, (hm.trans hm₂).trans hm₃⟩
  · exact ⟨_, w, ts, .assignmentNot ha, .refl w ts⟩

theorem returns_printing (hw : w.Shows ts) (hn : ts.length ≤ n) : Returns .printing w ts := by
  obtain ⟨v, w₁, ts₁, hv, hm₁⟩ := returns_expression_next ih Kind.lowest hw hn
  have hm₁' := (Moves.next w ts).trans hm₁
  obtain ⟨⟨⟩, w₂, ts₂, hl, hm₂⟩ := returns_restOfLine (hm₁'.shows hw)
  exact ⟨_, w₂, ts₂, .printing hv hl, hm₁'.trans hm₂⟩

theorem returns_expressionStatement (hw : w.Shows ts) (hn : ts.length ≤ n) : Returns .expressionStatement w ts := by
  obtain ⟨e, w₁, ts₁, he, hm₁⟩ := returns_expression ih Kind.lowest hw hn
  obtain ⟨b, w₂, ts₂, hb, hm₂⟩ := returns_expect .newline w₁ ts₁
  exact ⟨_, w₂, ts₂, .expressionStatement he hb, hm₁.trans hm₂⟩

theorem returns_statement (hw : w.Shows ts) (hn : ts.length ≤ n) : Returns .statement w ts := by
  by_cases ha : w.cur.kind = .ident ∧ w.peek.kind = .assign
  · obtain ⟨s, w', ts', hs, hm⟩ := returns_assignment ih hw hn
    exact ⟨s, w', ts', .statementAssign ha hs, hm⟩
  by_cases hp : w.cur.kind = .printWord
  · obtain ⟨s, w', ts', hs, hm⟩ := returns_printing ih hw hn
    exact ⟨s, w', ts', .statementPrint hp hs, hm⟩
  · obtain ⟨s, w', ts', hs, hm⟩ := returns_expressionStatement ih hw hn
    exact ⟨s, w', ts', .statementExpr ha hp hs, hm⟩

theorem returns_lines (braced : Bool) (hw : w.Shows ts) (hn : ts.length ≤ n) : Returns (.lines braced) w ts := by
  by_cases h : w.cur.kind = .eof ∨ braced = true ∧ w.cur.kind = .rbrace
  · exact ⟨[], w, ts, .linesEnd h, .refl w ts⟩
  · have hlen := hw.length_pos fun hk => h (.inl hk)
    obtain ⟨s, w₁, ts₁, hs, hm₁⟩ := returns_statement ih hw hn
    have hle := hm₁.length_le
    have hm₁' := hm₁.trans (.next _ _)
    obtain ⟨ss, w₂, ts₂, hl, hm₂⟩ := ih (.lines braced) w₁.next ts₁.tail (by simp; omega) (hm₁'.shows hw)
    exact ⟨_, w₂, ts₂, .lines h hs hl, hm₁'.trans hm₂⟩

theorem returns_of_shorter (c : Call) (hw : w.Shows ts) (hn : ts.length ≤ n) : Returns c w ts := by
  cases c with
  | next => exact ⟨(), w.next, ts.tail, .next, .next w ts⟩
  | expect k => exact returns_expect k w ts
  | program =>
    obtain ⟨ss, w', ts', hl, hm⟩ := returns_lines ih false hw hn
    exact ⟨_, w', ts', .program hl, hm⟩
  | statement => exact returns_statement ih hw hn
  | assignment => exact returns_assignment ih hw hn
  | printing => exact returns_printing ih hw hn
  | expressionStatement => exact returns_expressionStatement ih hw hn
  | block => exact returns_block ih hw hn
  | expression p => exact returns_expression ih p hw hn
  | operand o => exact returns_operand ih o hw hn
  | operation left =>
    obtain ⟨right, w', ts', h, hm⟩ := returns_expression_next ih w.cur.kind.strength hw hn
    exact ⟨_, w', ts', .operation h, (Moves.next w ts).trans hm⟩
  | operators p left => exact returns_operators ih p left hw hn
  | clause => exact returns_clause ih hw hn
  | lines braced => exact returns_lines ih braced hw hn
  | restOfLine => exact returns_restOfLine hw

end Returns

/-- Every call returns. -/
theorem returns (c : Call) {w : Window} {ts : List Lexeme} (hw : w.Shows ts) : Returns c w ts := by
  suffices h : ∀ n (c : Call) (w : Window) (ts : List Lexeme), ts.length < n → w.Shows ts → Returns c w ts from
    h (ts.length + 1) c w ts (Nat.lt_succ_self _) hw
  intro n
  induction n with
  | zero => exact fun c w ts hn _ => absurd hn (Nat.not_lt_zero _)
  | succ n ih => exact fun c w ts hn hw => returns_of_shorter ih c hw (Nat.le_of_lt_succ hn)

end Tolerant

end LineLang
