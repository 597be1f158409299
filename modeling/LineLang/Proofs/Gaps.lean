import Mathlib
import LineLang.Proofs.RoundTrip

/-!
# Accepted programs without gaps

The tolerant parser leaves a part empty where it does not find what it expects. In a program that the strict parser
accepts, everything is there, but a print statement in front of a closing brace takes the brace away with the rest of
its line. Outside parentheses that moves the end of a block, and nothing gets lost. Inside them the closing
parenthesis is taken too, and with it all that the parentheses held.

* `Derivation.parensEndLines`, `PrintsEndLinesInParens s` : inside parentheses, print statements end their lines;
* `Tolerant.Served t u` : behind the lexeme `t`, the parser finds in `u` what it expects;
* `Tolerant.Sound ts` : it does so behind every lexeme of `ts`, wherever it has come to;
* `Derivation.sound` : the lexemes of such a derivation are sound;
* `Tolerant.blanks_programOf` : sound lexemes make a tree that lacks the expressions of blank statements only.
-/

namespace LineLang

open Grammar
open Strict (IsTerminal Splits)

namespace Grammar.Derivation

/-- Inside parentheses, a line end stands behind each print statement of a block. -/
def parensEndLines : {c : Part} → Derivation c → Bool
  | _, .name _ => true
  | _, .number _ => true
  | _, .group e => e.parensEndLines
  | _, .choice _ condition yes => condition.parensEndLines && yes.parensEndLines
  | _, .choiceElse _ condition yes _ no => condition.parensEndLines && (yes.parensEndLines && no.parensEndLines)
  | _, .loop _ condition inner => condition.parensEndLines && inner.parensEndLines
  | _, .chain head more => head.parensEndLines && more.parensEndLines
  | _, .stop => true
  | _, .operand _ right more => right.parensEndLines && more.parensEndLines
  | _, .parens _ e _ => e.printsEndLines
  | _, .block _ content _ => content.parensEndLines
  | _, .assign _ _ value => value.parensEndLines
  | _, .print _ value => value.parensEndLines
  | _, .expr e => e.parensEndLines
  | _, .noLine => true
  | _, .lastLine s => s.parensEndLines
  | _, .line s _ more => s.parensEndLines && more.parensEndLines
  | _, .body _ content => content.parensEndLines

theorem parensEndLines_of_printsEndLines {c : Part} (d : Derivation c) (h : d.printsEndLines = true) :
    d.parensEndLines = true := by
  induction d <;> simp_all [printsEndLines, parensEndLines]

end Grammar.Derivation

/-! ## What the tolerant parser expects -/

namespace Tolerant

/-- Behind the lexeme `t`, the lexemes `u` begin with what the parser expects there. -/
structure Served (t : Lexeme) (u : List Lexeme) : Prop where
  /-- An expression behind an operator, behind the sign of an assignment and behind `print`. -/
  value : t.kind = .assign ∨ t.kind = .printWord ∨ t.kind.strength?.isSome = true → (cur u).kind ∈ expressionStarts
  /-- An expression and a closing parenthesis behind an opening one. -/
  group : t.kind = .lparen → ∃ w e r z, u = w ++ r :: z ∧ r.kind = .rparen ∧ Reads 2 w e
  /-- A condition in parentheses and the beginning of a block behind `if` and `while`. -/
  clause : t.kind = .ifWord ∨ t.kind = .whileWord → ∃ l w c r b z, u = l :: (w ++ r :: b :: z) ∧ l.kind = .lparen ∧
    r.kind = .rparen ∧ b.kind = .lbrace ∧ Reads 2 w c
  /-- The beginning of a block behind `else`. -/
  otherwise : t.kind = .elseWord → (cur u).kind = .lbrace

/-- Behind each of the lexemes stands what the parser expects there. -/
def Sound : List Lexeme → Prop
  | [] => True
  | t :: u => Served t u ∧ Sound u

theorem Sound.drop : ∀ {ts : List Lexeme}, Sound ts → ∀ k, Sound (ts.drop k)
  | [], _, k => by
    rw [List.drop_nil]
    trivial
  | _ :: _, h, 0 => h
  | _ :: _, h, k + 1 => Sound.drop h.2 k

/-- Only behind the end of the lexemes stands the end of the text. -/
theorem exists_of_cur {k : Kind} (hk : k ≠ .eof) {ts : List Lexeme} (h : (cur ts).kind = k) :
    ∃ t u, ts = t :: u ∧ t.kind = k := by
  cases ts with
  | nil => exact absurd h.symm hk
  | cons t u => exact ⟨t, u, rfl, h⟩

/-- The kinds of lexemes behind which the parser expects nothing. -/
def free : List Kind := [.ident, .num, .rparen, .lbrace, .rbrace, .newline]

theorem served_free {t : Lexeme} (h : t.kind ∈ free) (u : List Lexeme) : Served t u := by
  constructor <;> intro hk <;> simp only [free, List.mem_cons, List.not_mem_nil, or_false] at h <;>
    rcases h with h | h | h | h | h | h <;> simp [h, Kind.strength?] at hk

theorem Sound.cons_free {t : Lexeme} {u : List Lexeme} (hu : Sound u) (h : t.kind ∈ free) : Sound (t :: u) :=
  ⟨served_free h u, hu⟩

theorem Sound.lineFeeds {u : List Lexeme} (hu : Sound u) (n : Nat) :
    Sound (List.replicate n (.mark .newline) ++ u) := by
  induction n with
  | zero => exact hu
  | succ n ih => exact ih.cons_free (by decide)

end Tolerant

namespace Grammar.Derivation

open Tolerant (Sound Served cur)

theorem lexemes_starts {tier : Nat} (e : Derivation (.expression tier)) (rest : List Lexeme) :
    (cur (e.lexemes ++ rest)).kind ∈ expressionStarts := by
  obtain ⟨t, v, hu, ht, -⟩ := e.starts
  rw [lexemes, hu, List.flatMap_cons, Strict.pieces_of_ne fun hk => absurd (hk ▸ ht) (by decide)]
  exact ht

theorem sound_leaf {k : Kind} (x : Leaf k) (hk : k ∈ Tolerant.free) {u : List Lexeme} (hu : Sound u) :
    Sound (x.1 :: u) :=
  hu.cons_free (by rw [x.2]; exact hk)

/-- Parentheses in which prints end their lines are read whole. -/
theorem lexemes_parens (d : Derivation .parens) (hd : ∀ t ∈ d.yield, IsTerminal t) (hp : d.parensEndLines = true) :
    ∃ l w r e, d.lexemes = l :: (w ++ [r]) ∧ l.kind = .lparen ∧ r.kind = .rparen ∧ Tolerant.Reads 2 w e := by
  cases d with
  | parens l e r =>
    simp only [yield, List.forall_mem_cons, List.forall_mem_append] at hd
    obtain ⟨l', w, r', e', hlex, hl, hr, hread, -⟩ := (e.agrees hd.2.1 hp).parens l r
    exact ⟨l', w, r', e', hlex, hl, hr, hread⟩

theorem lexemes_block (d : Derivation .block) : ∃ b v, d.lexemes = b :: v ∧ b.kind = .lbrace := by
  cases d with
  | block l content r => exact ⟨l.1, _, flatMap_leaf l (by decide) _, l.2⟩

/-- The word in front of a condition and a block. -/
theorem sound_clause {k : Kind} (x : Leaf k) (hk : k = .ifWord ∨ k = .whileWord) (condition : Derivation .parens)
    (inner : Derivation .block) (hd : ∀ t ∈ condition.yield, IsTerminal t) (hp : condition.parensEndLines = true)
    {rest : List Lexeme} (h : Sound (condition.lexemes ++ (inner.lexemes ++ rest))) :
    Sound (x.1 :: (condition.lexemes ++ (inner.lexemes ++ rest))) := by
  refine ⟨?_, h⟩
  obtain ⟨l, w, r, e, hlex, hl, hr, hread⟩ := condition.lexemes_parens hd hp
  obtain ⟨b, v, hb, hbk⟩ := inner.lexemes_block
  have hx : x.1.kind ∉ [.assign, .printWord, .lparen, .elseWord] ∧ x.1.kind.strength? = none := by
    rw [x.2]
    rcases hk with rfl | rfl <;> decide
  simp only [List.mem_cons, List.not_mem_nil, or_false, not_or] at hx
  obtain ⟨⟨ha, hpw, hlp, hel⟩, hs⟩ := hx
  refine ⟨?_, fun hk => absurd hk hlp, fun _ => ?_, fun hk => absurd hk hel⟩
  · rintro (hk | hk | hk)
    · exact absurd hk ha
    · exact absurd hk hpw
    · rw [hs] at hk
      cases hk
  · refine ⟨l, w, e, r, b, v ++ rest, ?_, hl, hr, hbk, hread⟩
    rw [hlex, hb]
    simp

theorem sound_newline (nl : Leaf .newline) (hnl : IsTerminal nl.1) {u : List Lexeme} (hu : Sound u) :
    Sound (Strict.pieces nl.1 ++ u) := by
  obtain ⟨n, hn⟩ := pieces_newline nl hnl
  rw [hn]
  exact hu.lineFeeds (n + 1)

/-- A lexeme behind which a value is expected. -/
theorem sound_value {t : Lexeme} (ht : t.kind = .assign ∨ t.kind = .printWord ∨ t.kind.strength?.isSome = true)
    {tier : Nat} (e : Derivation (.expression tier)) {rest : List Lexeme} (h : Sound (e.lexemes ++ rest)) :
    Sound (t :: (e.lexemes ++ rest)) := by
  have hother : t.kind ∉ [.lparen, .ifWord, .whileWord, .elseWord] := by
    intro hk
    simp only [List.mem_cons, List.not_mem_nil, or_false] at hk
    rcases hk with hk | hk | hk | hk <;> simp [hk, Kind.strength?] at ht
  simp only [List.mem_cons, List.not_mem_nil, or_false, not_or] at hother
  obtain ⟨hl, hi, hw, he⟩ := hother
  exact ⟨⟨fun _ => e.lexemes_starts rest, fun hk => absurd hk hl, fun hk => absurd hk (by simp [hi, hw]),
    fun hk => absurd hk he⟩, h⟩

theorem sound {c : Part} (d : Derivation c) (hd : ∀ t ∈ d.yield, IsTerminal t) (hp : d.parensEndLines = true)
    {rest : List Lexeme} (hrest : Sound rest) : Sound (d.lexemes ++ rest) := by
  induction d generalizing rest with
  | name x =>
    rw [lexemes, yield, flatMap_leaf x (by decide)]
    exact sound_leaf x (by decide) hrest
  | number x =>
    rw [lexemes, yield, flatMap_leaf x (by decide)]
    exact sound_leaf x (by decide) hrest
  | group e ih => exact ih hd hp hrest
  | choice x condition yes ihc ihy =>
    simp only [yield, List.forall_mem_cons, List.forall_mem_append] at hd
    obtain ⟨hpc, hpy⟩ := Bool.and_eq_true_iff.1 hp
    rw [lexemes, yield, flatMap_leaf x (by decide), List.flatMap_append, List.cons_append, List.append_assoc]
    exact sound_clause x (.inl rfl) condition yes hd.2.1 hpc (ihc hd.2.1 hpc (ihy hd.2.2 hpy hrest))
  | choiceElse x condition yes word no ihc ihy ihn =>
    simp only [yield, List.forall_mem_cons, List.forall_mem_append] at hd
    obtain ⟨hpc, hp⟩ := Bool.and_eq_true_iff.1 hp
    obtain ⟨hpy, hpn⟩ := Bool.and_eq_true_iff.1 hp
    rw [lexemes, yield, flatMap_leaf x (by decide), List.flatMap_append, List.flatMap_append,
      flatMap_leaf word (by decide), List.cons_append, List.append_assoc, List.append_assoc, List.cons_append]
    refine sound_clause x (.inl rfl) condition yes hd.2.1 hpc (ihc hd.2.1 hpc (ihy hd.2.2.1 hpy ?_))
    refine ⟨⟨?_, ?_, ?_, fun _ => ?_⟩, ihn hd.2.2.2.2 hpn hrest⟩
    · simp [word.2, Kind.strength?]
    · simp [word.2]
    · simp [word.2]
    · obtain ⟨b, v, hb, hbk⟩ := no.lexemes_block
      rw [← lexemes, hb]
      exact hbk
  | loop x condition inner ihc ihb =>
    simp only [yield, List.forall_mem_cons, List.forall_mem_append] at hd
    obtain ⟨hpc, hpb⟩ := Bool.and_eq_true_iff.1 hp
    rw [lexemes, yield, flatMap_leaf x (by decide), List.flatMap_append, List.cons_append, List.append_assoc]
    exact sound_clause x (.inr rfl) condition inner hd.2.1 hpc (ihc hd.2.1 hpc (ihb hd.2.2 hpb hrest))
  | chain head more ihh ihm =>
    simp only [yield, List.forall_mem_append] at hd
    obtain ⟨hph, hpm⟩ := Bool.and_eq_true_iff.1 hp
    rw [lexemes, yield, List.flatMap_append, List.append_assoc]
    exact ihh hd.1 hph (ihm hd.2 hpm hrest)
  | stop => exact hrest
  | operand op right more ihr ihm =>
    simp only [yield, List.forall_mem_cons, List.forall_mem_append] at hd
    obtain ⟨hpr, hpm⟩ := Bool.and_eq_true_iff.1 hp
    rw [lexemes, yield, flatMap_operator, List.flatMap_append, List.cons_append, List.append_assoc]
    refine sound_value (.inr (.inr ?_)) right (ihr hd.2.1 hpr (ihm hd.2.2 hpm hrest))
    rw [op.strength]
    rfl
  | parens l e r ih =>
    obtain ⟨l', w, r', e', hlex, hl, hr, hread⟩ := (Derivation.parens l e r).lexemes_parens hd hp
    simp only [yield, List.forall_mem_cons, List.forall_mem_append] at hd
    have hin : Sound (e.lexemes ++ r.1 :: rest) :=
      ih hd.2.1 (e.parensEndLines_of_printsEndLines hp) (sound_leaf r (by decide) hrest)
    have hlex' : (Derivation.parens l e r).lexemes = l.1 :: (e.lexemes ++ [r.1]) := by
      rw [lexemes, yield, flatMap_leaf l (by decide), List.flatMap_append, flatMap_leaf r (by decide),
        List.flatMap_nil, ← lexemes]
    obtain ⟨rfl, hw⟩ := List.cons.inj (hlex.symm.trans hlex')
    obtain ⟨rfl, hr'⟩ := List.append_inj' hw rfl
    rw [hlex', List.cons_append, List.append_assoc]
    refine ⟨⟨?_, fun _ => ⟨e.lexemes, e', r.1, rest, rfl, r.2, hread⟩, ?_, ?_⟩, hin⟩
    · simp [l.2, Kind.strength?]
    · simp [l.2]
    · simp [l.2]
  | block l content r ih =>
    simp only [yield, List.forall_mem_cons, List.forall_mem_append] at hd
    rw [lexemes, yield, flatMap_leaf l (by decide), List.flatMap_append, flatMap_leaf r (by decide),
      List.flatMap_nil, List.cons_append, List.append_assoc]
    exact sound_leaf l (by decide) (ih hd.2.1 hp (sound_leaf r (by decide) hrest))
  | assign x sign value ih =>
    simp only [yield, List.forall_mem_cons] at hd
    rw [lexemes, yield, flatMap_leaf x (by decide), flatMap_leaf sign (by decide)]
    exact sound_leaf x (by decide) (sound_value (.inl sign.2) value (ih hd.2.2 hp hrest))
  | print x value ih =>
    simp only [yield, List.forall_mem_cons] at hd
    rw [lexemes, yield, flatMap_leaf x (by decide)]
    exact sound_value (.inr (.inl x.2)) value (ih hd.2 hp hrest)
  | expr e ih => exact ih hd hp hrest
  | noLine => exact hrest
  | lastLine s ih => exact ih hd hp hrest
  | line s nl more ihs ihm =>
    simp only [yield, List.forall_mem_cons, List.forall_mem_append] at hd
    obtain ⟨hps, hpm⟩ := Bool.and_eq_true_iff.1 hp
    rw [lexemes, yield, List.flatMap_append, List.flatMap_cons, List.append_assoc, List.append_assoc]
    exact ihs hd.1 hps (sound_newline nl hd.2.1 (ihm hd.2.2 hpm hrest))
  | body start content ih =>
    cases start with
    | none => exact ih hd hp hrest
    | some nl =>
      simp only [yield, List.forall_mem_append] at hd
      have hlex : (Derivation.body (some nl) content).lexemes = Strict.pieces nl.1 ++ content.lexemes := by
        rw [lexemes, yield, List.flatMap_append]
        simp [lexemes]
      rw [hlex, List.append_assoc]
      exact sound_newline nl (hd.1 nl.1 (by simp)) (ih hd.2 hp hrest)

end Grammar.Derivation

/-! ## Trees of sound lexemes -/

/-- A tree that lacks nothing but the expressions of blank statements. -/
def Node.Blanks (n : Node) : Prop := ∀ slot ∈ n.gaps, slot = .statement

namespace Tolerant

/-- An expression that is there, and lacks nothing but the expressions of blank statements. -/
def Filled (e : Node) : Prop := e.isMissing = false ∧ e.Blanks

theorem Filled.holes {e : Node} (h : Filled e) (slot : Slot) : ∀ slot' ∈ e.hole slot ++ e.gaps, slot' = .statement := by
  rw [Node.hole, h.1]
  exact h.2

theorem filled_ofName (t : Lexeme) : Filled (.ofName t) := ⟨rfl, by simp [Node.Blanks, Node.ofName, Node.gaps]⟩

theorem filled_integer (t : Lexeme) : Filled (integer t) := ⟨rfl, by simp [Node.Blanks, integer, Node.gaps]⟩

theorem Filled.binary {l r : Node} (hl : Filled l) (hr : Filled r) (t : Token) (o : Json) :
    Filled (.binary t l o r) := by
  refine ⟨rfl, ?_⟩
  rw [Node.Blanks, Node.gaps]
  exact List.forall_mem_append.2 ⟨hl.holes _, hr.holes _⟩

theorem Filled.cond {c y n : Node} (hc : Filled c) (hy : y.Blanks) (hn : n.Blanks) (t : Token) :
    Filled (.cond t c y n) := by
  refine ⟨rfl, ?_⟩
  rw [Node.Blanks, Node.gaps]
  exact List.forall_mem_append.2 ⟨hc.holes _, List.forall_mem_append.2 ⟨hy, hn⟩⟩

theorem Filled.loop {c b : Node} (hc : Filled c) (hb : b.Blanks) (t : Token) : Filled (.loop t c b) := by
  refine ⟨rfl, ?_⟩
  rw [Node.Blanks, Node.gaps]
  exact List.forall_mem_append.2 ⟨hc.holes _, hb⟩

theorem blanks_block {ss : List Node} (h : ∀ s ∈ ss, s.Blanks) (t : Token) : (Node.block t ss).Blanks := by
  intro slot hslot
  obtain ⟨s, hs, hslot⟩ := Node.mem_gapsList.1 hslot
  exact h s hs slot hslot

theorem blanks_missing : Node.missing.Blanks := by simp [Node.Blanks, Node.gaps]

/-- An operand begins with each lexeme that an expression begins with. -/
theorem operand_eq_none {t : Lexeme} {rest : List Lexeme} (h : operand t rest = none) : t.kind ∉ expressionStarts := by
  rw [operand] at h
  intro hk
  simp only [expressionStarts, List.mem_cons, List.not_mem_nil, or_false] at hk
  rcases hk with hk | hk | hk | hk | hk <;> rw [hk] at h <;> cases h

mutual

theorem filled_expression (p : Int) (ts : List Lexeme) (h : Sound ts) :
    (expression p ts).1 = .missing ∧ (cur ts).kind ∉ expressionStarts ∨ Filled (expression p ts).1 := by
  match ts with
  | [] =>
    rw [expression]
    exact .inl ⟨rfl, by decide⟩
  | t :: rest =>
    rw [expression]
    split
    · next ho => exact .inl ⟨rfl, operand_eq_none ho⟩
    · next left k ho => exact .inr (filled_operators p left _ (filled_operand t rest h ho) (h.drop k))
termination_by 5 * ts.length + 1

theorem filled_operand (t : Lexeme) (rest : List Lexeme) (h : Sound (t :: rest)) {e : Node} {k : Nat}
    (ho : operand t rest = some (e, k)) : Filled e := by
  rw [operand] at ho
  split at ho
  · obtain ⟨rfl, -⟩ := Prod.mk.inj (Option.some.inj ho)
    exact filled_ofName t
  · obtain ⟨rfl, -⟩ := Prod.mk.inj (Option.some.inj ho)
    exact filled_integer t
  · next ht =>
    have hg := filled_group rest (h.1.group ht) h.2
    rw [Option.some.inj ho] at hg
    exact hg
  · next ht =>
    have hc := filled_choice t rest ht h
    rw [Option.some.inj ho] at hc
    exact hc
  · next ht =>
    have hl := filled_loop t rest ht h
    rw [Option.some.inj ho] at hl
    exact hl
  · cases ho
termination_by 5 * rest.length + 4

theorem filled_operators (p : Int) (left : Node) (ts : List Lexeme) (hl : Filled left) (h : Sound ts) :
    Filled (operators p left ts).1 := by
  unfold operators
  split
  · next a op rest =>
    split
    · next q hq =>
      split
      · have hstart : (cur rest).kind ∈ expressionStarts :=
          h.2.1.value (.inr (.inr (by rw [hq]; rfl)))
        have hr : Filled (expression q rest).1 :=
          (filled_expression q rest h.2.2).resolve_left fun hm => hm.2 hstart
        exact filled_operators p _ _ (hl.binary hr _ _) (h.2.2.drop _)
      · exact hl
    · exact hl
  · exact hl
termination_by 5 * ts.length + 0

theorem filled_group (rest : List Lexeme)
    (hg : ∃ w e r z, rest = w ++ r :: z ∧ r.kind = .rparen ∧ Reads 2 w e) (h : Sound rest) :
    Filled (group rest).1 := by
  obtain ⟨w, e, r, z, hrest, hr, hread⟩ := hg
  have he : expression Kind.lowest rest = (e, w.length - 1) := by
    rw [hrest]
    exact hread.expression_eq (by decide) (by simp [cur, hr]) (by simp [cur, hr, Kind.strength?])
  obtain ⟨t, ht, -⟩ := hread.ends.drop_eq (r :: z)
  have hf := (filled_expression Kind.lowest rest h).resolve_left fun hm => hread.present (by rw [← hm.1, he])
  rw [he] at hf
  rw [group]
  simp only [he]
  rw [hrest, ht, if_pos (peekIs_of_kind hr)]
  exact hf
termination_by 5 * rest.length + 2

theorem filled_clause (rest : List Lexeme) (hc : ∃ l w c r b z, rest = l :: (w ++ r :: b :: z) ∧ l.kind = .lparen ∧
    r.kind = .rparen ∧ b.kind = .lbrace ∧ Reads 2 w c) (h : Sound rest) :
    ∃ c b k, clause rest = (some (c, b), k + 1) ∧ Filled c ∧ b.Blanks := by
  obtain ⟨l, w, c, r, b, z, rfl, hl, hr, hb, hread⟩ := hc
  have he : expression Kind.lowest (w ++ r :: b :: z) = (c, w.length - 1) :=
    hread.expression_eq (by decide) (by simp [cur, hr]) (by simp [cur, hr, Kind.strength?])
  obtain ⟨t, ht, -⟩ := hread.ends.drop_eq (r :: b :: z)
  have hf := (filled_expression Kind.lowest _ h.2).resolve_left fun hm => hread.present (by rw [← hm.1, he])
  rw [he] at hf
  have hdrop : (w ++ r :: b :: z).drop (w.length - 1 + 1) = r :: b :: z := by
    rw [Nat.sub_add_cancel hread.ends.length_pos, List.drop_left]
  have hsound := h.2.drop (w.length - 1 + 1)
  rw [hdrop] at hsound
  obtain ⟨y, j, hy, hyb⟩ := blanks_braces (r :: b :: z) hsound hb
  rw [clause, if_pos hl]
  simp only [he, ht, hdrop, hy]
  rw [if_pos (peekIs_of_kind hr)]
  exact ⟨c, y, w.length - 1 + 2 + j, by rw [Nat.add_right_comm _ j 1], hf, hyb⟩
termination_by 5 * rest.length + 2

theorem blanks_braces (ts : List Lexeme) (h : Sound ts) (hb : (cur ts.tail).kind = .lbrace) :
    ∃ b k, braces ts = some (b, k) ∧ b.Blanks := by
  match ts with
  | [] => cases hb
  | x :: rest =>
    obtain ⟨b, z, rfl, hk⟩ := exists_of_cur (by decide) hb
    rw [braces, if_pos hk]
    exact ⟨_, _, rfl, blanks_block (blanks_statements z h.2.2) _⟩
termination_by 5 * ts.length + 2

theorem filled_choice (t : Lexeme) (rest : List Lexeme) (ht : t.kind = .ifWord) (h : Sound (t :: rest)) :
    Filled (choice t rest).1 := by
  obtain ⟨c, y, k, hc, hcf, hy⟩ := filled_clause rest (h.1.clause (.inl ht)) h.2
  rw [choice, hc]
  simp only [Nat.add_sub_cancel]
  split
  · next hp =>
    -- the word is the lexeme behind the first block
    have hword : (cur (rest.drop (k + 1))).kind = .elseWord := by
      rw [← List.tail_drop]
      exact of_decide_eq_true hp
    obtain ⟨x, u, hu, hx⟩ := exists_of_cur (by decide) hword
    have hsound := h.2.drop (k + 1)
    rw [hu] at hsound
    obtain ⟨n, j, hn, hnb⟩ := blanks_braces (rest.drop (k + 1)) (by rw [hu]; exact hsound)
      (by rw [hu]; exact hsound.1.otherwise hx)
    rw [hn]
    exact hcf.cond hy hnb _
  · exact hcf.cond hy blanks_missing _
termination_by 5 * rest.length + 3

theorem filled_loop (t : Lexeme) (rest : List Lexeme) (ht : t.kind = .whileWord) (h : Sound (t :: rest)) :
    Filled (loop t rest).1 := by
  obtain ⟨c, b, k, hc, hcf, hb⟩ := filled_clause rest (h.1.clause (.inr ht)) h.2
  rw [loop, hc]
  exact hcf.loop hb _
termination_by 5 * rest.length + 3

theorem blanks_statement (ts : List Lexeme) (h : Sound ts) : (statement ts).1.Blanks := by
  match ts with
  | [] =>
    rw [statement]
    simp [Node.Blanks, Node.gaps, Node.hole, Node.isMissing]
  | t :: rest =>
    rw [statement]
    split
    · next ht =>
      obtain ⟨-, ha⟩ := Bool.and_eq_true_iff.1 ht
      obtain ⟨a, u, rfl, hk⟩ := exists_of_cur (by decide) (of_decide_eq_true ha)
      have hv : Filled (expression Kind.lowest u).1 :=
        (filled_expression _ u h.2.2).resolve_left fun hm => hm.2 (h.2.1.value (.inl hk))
      exact hv.holes .value
    split
    · next ht =>
      have hstart : (cur rest).kind ∈ expressionStarts := h.1.value (.inr (.inl ht))
      have hv : Filled (expression Kind.lowest rest).1 :=
        (filled_expression _ rest h.2).resolve_left fun hm => hm.2 hstart
      exact hv.holes .value
    · rcases filled_expression Kind.lowest (t :: rest) h with hm | hf
      · simp only [hm.1]
        simp [Node.Blanks, Node.gaps, Node.hole, Node.isMissing]
      · exact hf.holes .statement
termination_by 5 * ts.length + 2

theorem blanks_statements (ts : List Lexeme) (h : Sound ts) : ∀ s ∈ (statements ts).1, s.Blanks := by
  match ts with
  | [] =>
    rw [statements]
    exact fun s hs => absurd hs List.not_mem_nil
  | t :: rest =>
    rw [statements]
    split
    · exact fun s hs => absurd hs List.not_mem_nil
    · exact List.forall_mem_cons.2 ⟨blanks_statement (t :: rest) h, blanks_statements _ (h.2.drop _)⟩
termination_by 5 * ts.length + 3

end

theorem blanks_programOf (ts : List Lexeme) (h : Sound ts) : ∀ s ∈ programOf ts, s.Blanks := by
  match ts with
  | [] =>
    rw [programOf]
    exact fun s hs => absurd hs List.not_mem_nil
  | t :: rest =>
    rw [programOf]
    exact List.forall_mem_cons.2 ⟨blanks_statement (t :: rest) h, blanks_programOf _ (h.2.drop _)⟩
termination_by ts.length

end Tolerant

/-! ## Accepted texts -/

/-- Inside the parentheses of the text, a line end stands behind each print statement of a block. -/
def PrintsEndLinesInParens (s : String) : Prop :=
  ∀ d : Derivation .body, Splits s.toList d.yield → d.parensEndLines = true

/-- The text of a tree that lacks nothing but whole statements is read back. -/
theorem shown_of_blanks {s : String} (h : (Tolerant.parse s).Blanks) :
    ∃ text, (Tolerant.parse s).shown = .ok text ∧ (Tolerant.parse text).shown = .ok text := by
  obtain ⟨ss, hroot, hss⟩ := formed_tolerant s
  rw [hroot] at h ⊢
  have hopen : ∀ n ∈ ss, Formed Open .statement n := fun n hn =>
    (hss n hn).restrict_statement fun slot hslot => .inr (h slot (Node.mem_gapsList.2 ⟨n, hn, hslot⟩))
  obtain ⟨text, htext, hcore⟩ := tolerant_of_formed hopen
  exact ⟨text, htext, (Node.shown_eq_of_core_eq hcore).trans htext⟩

/-- The tolerant tree of an accepted text lacks no value, condition or operand, and its text is read back. -/
theorem tolerant_complete_of_accepted {s : String} {t : Node} (h : Strict.parse s = .ok t)
    (hp : PrintsEndLinesInParens s) :
    .value ∉ (Tolerant.parse s).gaps ∧ .condition ∉ (Tolerant.parse s).gaps ∧
      .operand ∉ (Tolerant.parse s).gaps ∧
      ∃ text, (Tolerant.parse s).shown = .ok text ∧ (Tolerant.parse text).shown = .ok text := by
  obtain ⟨d, hs, -⟩ := Strict.parse_eq_ok_iff.1 h
  have hsound : Tolerant.Sound (d.lexemes ++ []) := d.sound hs.isTerminal (hp d hs) trivial
  have hlex : LineLang.lexemes s.toList = d.lexemes := Strict.lexemes_of_splits hs
  rw [List.append_nil, ← hlex] at hsound
  have hblanks : (Tolerant.parse s).Blanks := by
    intro slot hslot
    obtain ⟨n, hn, hslot⟩ := Node.mem_gapsList.1 hslot
    exact Tolerant.blanks_programOf _ hsound n hn slot hslot
  refine ⟨fun hv => ?_, fun hc => ?_, fun ho => ?_, shown_of_blanks hblanks⟩
  · cases hblanks _ hv
  · cases hblanks _ hc
  · cases hblanks _ ho

/-- A choice whose block is `content`. -/
def choiceOn (name : String) (content : Derivation .body) : Derivation (.expression 0) :=
  .choice (.mark .ifWord)
    (.parens (.mark .lparen) ((Derivation.name (.spelt .ident name)).raise 6) (.mark .rparen))
    (.block (.mark .lbrace) content (.mark .rbrace))

/-- `1 + (e)` -/
def oneAnd (e : Derivation (.expression 0)) : Derivation (.expression Strict.topTier) :=
  (Derivation.chain ((Derivation.number (.spelt .num "1")).raise 1)
    (.operand ⟨.mark .plus, by decide⟩
      ((Derivation.group (.parens (.mark .lparen) (e.raise 6) (.mark .rparen))).raise 1) .stop)).raise 4

def printName (name : String) : Derivation .statement :=
  .print (.mark .printWord) ((Derivation.name (.spelt .ident name)).raise 6)

/-- A block in parentheses whose print ends its line, and one behind them whose print does not. -/
def printsOutsideParens : Derivation .body :=
  .body none (.line
    (.assign (.spelt .ident "y") (.mark .assign)
      (oneAnd (choiceOn "a" (.body none (.line (printName "b") (.mark .newline) .noLine)))))
    (.mark .newline) (.lastLine (.expr ((choiceOn "y" (.body none (.lastLine (printName "y")))).raise 6))))

def outsideParens : String := "y = 1 + (if (a) \x7bprint b\n\x7d)\nif (y) \x7b print y \x7d"

theorem tolerant_complete_of_accepted_outside :
    Strict.parse outsideParens = .ok (.root printsOutsideParens.tree) ∧ PrintsEndLinesInParens outsideParens ∧
    .value ∉ (Tolerant.parse outsideParens).gaps ∧ .condition ∉ (Tolerant.parse outsideParens).gaps ∧
    .operand ∉ (Tolerant.parse outsideParens).gaps ∧
    ∃ text, (Tolerant.parse outsideParens).shown = .ok text ∧ (Tolerant.parse text).shown = .ok text := by
  have hs : Splits outsideParens.toList printsOutsideParens.yield := Strict.splits_iff_scan.2 ⟨by cbv, by cbv⟩
  have h := Strict.parse_eq_ok_iff.2 ⟨printsOutsideParens, hs, rfl⟩
  have hp : PrintsEndLinesInParens outsideParens := by
    intro d hd
    rw [d.unambiguous printsOutsideParens (hd.unique hs)]
    decide
  exact ⟨h, hp, tolerant_complete_of_accepted h hp⟩

/-- A block in parentheses whose print does not end its line. -/
def printInsideParens : Derivation .body :=
  .body none (.lastLine (.expr (oneAnd (choiceOn "a" (.body none (.lastLine (printName "b")))))))

/-- The print takes the closing parenthesis away, and the operand in the parentheses is lost. -/
theorem operand_lost_inside_parens :
    Strict.parse "1 + (if (a) \x7b print b \x7d)" = .ok (.root printInsideParens.tree) ∧
    .operand ∈ (Tolerant.parse "1 + (if (a) \x7b print b \x7d)").gaps ∧
    (Tolerant.parse "1 + (if (a) \x7b print b \x7d)").shown = .ok "(1 + )\n" ∧
    (Tolerant.parse "(1 + )\n").shown = .ok "" := by
  refine ⟨?_, by decide +kernel, ?_, ?_⟩
  · exact Strict.parse_eq_ok_iff.2 ⟨printInsideParens, Strict.splits_iff_scan.2 ⟨by cbv, by cbv⟩, rfl⟩
  · cbv
  · cbv

end LineLang
