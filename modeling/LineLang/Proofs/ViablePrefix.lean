import LineLang.Proofs.Lookahead
import LineLang.Proofs.Rendering

/-!
# Viable prefixes

Where the strict parser fails, the terminals before that point can be continued to a program.

* `Separated ts` : no two line ends stand side by side, as they would be one;
* `spellOut ts` : a text of terminals;
* `Derivation.exists_text` : every derivation of a program is that of some text;
* `Fits c ts r` : the terminals of `ts` in front of `r` begin a derivation of the part `c`;
* `fits_expression`, `fits_statement`, `fits_lines` : where a function of the parser fails, they do;
* `fits_program` : the same for whole programs.
-/

namespace LineLang

open Grammar Strict

/-! ## The texts of derivations -/

def Separated : List Lexeme → Prop
  | [] => True
  | t :: ts => (t.kind = .newline → next ts ≠ some .newline) ∧ Separated ts

/-- The terminals, with a space behind each one that is no line end. -/
def spellOut : List Lexeme → List Char
  | [] => []
  | t :: ts => t.text.toList ++ if t.kind = .newline then spellOut ts else ' ' :: spellOut ts

theorem Strict.Splits.lineEnd {x : Lexeme} (hx : IsTerminal x) (hk : x.kind = .newline) {cs : List Char}
    {ts : List Lexeme} (hf : Fresh cs) (h : Splits cs ts) : Splits (x.text.toList ++ cs) (x :: ts) := by
  have hs := hx
  rw [IsTerminal, hk] at hs
  obtain ⟨tail, htext, -⟩ := hs
  have ht : terminal? '\n' (tail ++ cs) = some x := by
    unfold terminal?
    rw [if_neg (by decide), if_neg (by decide), if_pos rfl, takeWhile_run (hx.lineEnd htext).1 hf, ← htext,
      String.ofList_toList, ← hk]
  rw [htext, List.cons_append]
  refine .cons ht ?_
  rw [htext, List.length_cons, Nat.add_sub_cancel, List.drop_left]
  exact h

theorem Strict.Splits.terminal {x : Lexeme} (hx : IsTerminal x) (hk : x.kind ≠ .newline) {cs : List Char}
    {ts : List Lexeme} (h : Splits cs ts) : Splits (x.text.toList ++ ' ' :: cs) (x :: ts) := by
  by_cases hn : x.kind = .ident ∨ x.kind = .num
  · exact .name hx hn (apart_cons (by decide)) h.space
  · have hother : x.kind ∉ [Kind.ident, .num, .newline, .comma, .illegal, .eof] := by
      intro hm
      simp only [List.mem_cons, List.not_mem_nil, or_false] at hm
      rcases hm with hm | hm | hm | hm | hm | hm
      · exact hn (.inl hm)
      · exact hn (.inr hm)
      · exact hk hm
      all_goals rw [IsTerminal, hm] at hx; exact hx
    have hspelt : x = .mark x.kind :=
      hx.eq_mark fun hm => hother (List.mem_append_left [Kind.comma, .illegal, .eof] hm)
    have hcut := Splits.spaced hother h
    rw [hspelt]
    exact hcut

theorem fresh_spellOut {ts : List Lexeme} (ht : ∀ t ∈ ts, IsTerminal t) (hn : next ts ≠ some .newline) :
    Fresh (spellOut ts) := by
  cases ts with
  | nil => simp [Fresh, spellOut]
  | cons t ts =>
    obtain ⟨c, cs, hc, hl⟩ := (ht t (List.mem_cons_self ..)).solid fun hk => hn (congrArg some hk)
    rw [spellOut, hc]
    intro x hx
    obtain rfl : c = x := by simpa using hx
    exact hl

theorem splits_spellOut {ts : List Lexeme} (ht : ∀ t ∈ ts, IsTerminal t) (hs : Separated ts) :
    Splits (spellOut ts) ts := by
  induction ts with
  | nil => exact .done (by simp [spellOut])
  | cons t ts ih =>
    obtain ⟨hx, hts⟩ := List.forall_mem_cons.1 ht
    rw [spellOut]
    split
    · next hk => exact .lineEnd hx hk (fresh_spellOut hts (hs.1 hk)) (ih hts hs.2)
    · next hk => exact .terminal hx hk (ih hts hs.2)

namespace Grammar.Derivation

theorem next_lines_ne_newline (ls : Derivation .lines) {r : List Lexeme} (hr : next r ≠ some .newline) :
    next (ls.yield ++ r) ≠ some .newline := by
  rcases ls.starts with hl | ⟨t, v, hl, ht⟩
  · rw [hl]
    exact hr
  · rw [hl]
    intro hk
    have hn : t.kind = .newline := Option.some.inj hk
    exact absurd (hn ▸ ht) (by decide)

theorem separated_leaf {k : Kind} (x : Leaf k) (hk : k ≠ .newline) {r : List Lexeme} (hr : Separated r) :
    Separated (x.1 :: r) :=
  ⟨fun h => absurd (x.2.symm.trans h) hk, hr⟩

/-- Behind lines, no line end may follow. -/
theorem separated {c : Part} (d : Derivation c) {r : List Lexeme} (hr : Separated r)
    (hn : c = .lines ∨ c = .body → next r ≠ some .newline) : Separated (d.yield ++ r) := by
  induction d generalizing r with
  | name x => exact separated_leaf x (by decide) hr
  | number x => exact separated_leaf x (by decide) hr
  | group e ih => exact ih hr (by simp)
  | choice x condition yes ihc ihy =>
    rw [yield, List.cons_append, List.append_assoc]
    exact separated_leaf x (by decide) (ihc (ihy hr (by simp)) (by simp))
  | choiceElse x condition yes word no ihc ihy ihn =>
    rw [yield, List.cons_append, List.append_assoc, List.append_assoc, List.cons_append]
    refine separated_leaf x (by decide) (ihc (ihy (separated_leaf word (by decide) ?_) (by simp)) (by simp))
    exact ihn hr (by simp)
  | loop x condition inner ihc ihb =>
    rw [yield, List.cons_append, List.append_assoc]
    exact separated_leaf x (by decide) (ihc (ihb hr (by simp)) (by simp))
  | chain head more ihh ihm =>
    rw [yield, List.append_assoc]
    exact ihh (ihm hr (by simp)) (by simp)
  | stop => exact hr
  | operand op right more ihr ihm =>
    rw [yield, List.cons_append, List.append_assoc]
    refine ⟨fun hk => ?_, ihr (ihm hr (by simp)) (by simp)⟩
    have ht := op.tier
    rw [hk] at ht
    cases ht
  | parens l e r' ih =>
    rw [yield, List.cons_append, List.append_assoc]
    exact separated_leaf l (by decide) (ih (separated_leaf r' (by decide) hr) (by simp))
  | block l content r' ih =>
    rw [yield, List.cons_append, List.append_assoc]
    refine separated_leaf l (by decide) (ih (separated_leaf r' (by decide) hr) fun _ => ?_)
    simp [r'.2]
  | assign x sign value ih =>
    exact separated_leaf x (by decide) (separated_leaf sign (by decide) (ih hr (by simp)))
  | print x value ih => exact separated_leaf x (by decide) (ih hr (by simp))
  | expr e ih => exact ih hr (by simp)
  | noLine => exact hr
  | lastLine s ih => exact ih hr (by simp)
  | line s nl more ihs ihm =>
    rw [yield, List.append_assoc, List.cons_append]
    have hnext := hn (.inl rfl)
    exact ihs ⟨fun _ => more.next_lines_ne_newline hnext, ihm hr fun _ => hnext⟩ (by simp)
  | body start content ih =>
    have hnext := hn (.inr rfl)
    cases start with
    | none => exact ih hr fun _ => hnext
    | some nl => exact ⟨fun _ => content.next_lines_ne_newline hnext, ih hr fun _ => hnext⟩

/-- Every derivation of a program is the derivation of some text. -/
theorem exists_text (d : Derivation .body) (hd : ∀ t ∈ d.yield, IsTerminal t) :
    ∃ s : String, Splits s.toList d.yield := by
  have hs := d.separated (r := []) trivial (by simp)
  rw [List.append_nil] at hs
  refine ⟨String.ofList (spellOut d.yield), ?_⟩
  rw [String.toList_ofList]
  exact splits_spellOut hd hs

end Grammar.Derivation

/-! ## Where the parser fails -/

namespace Strict

def Fits (c : Part) (ts : List Placed) (r : Rest) : Prop :=
  ∃ front, ts = front ++ r ∧ ∃ d : Derivation c, front.map Placed.lexeme <+: d.yield ∧ ∀ t ∈ d.yield, IsTerminal t

def AllTerminal (ts : List Placed) : Prop := ∀ t ∈ ts, IsTerminal t.lexeme

theorem AllTerminal.drop {ts : List Placed} (h : AllTerminal ts) (k : Nat) : AllTerminal (ts.drop k) :=
  fun t ht => h t (List.mem_of_mem_drop ht)

theorem AllTerminal.tail {t : Placed} {ts : List Placed} (h : AllTerminal (t :: ts)) : AllTerminal ts := h.drop 1

theorem Begins.isTerminal {ts : List Placed} {u : List Lexeme} (h : Begins ts u) (hts : AllTerminal ts) :
    ∀ x ∈ u, IsTerminal x := by
  intro x hx
  obtain ⟨t, ht, rfl⟩ := List.mem_map.1 (h.subset hx)
  exact hts t ht

theorem Begins.map_take {ts : List Placed} {u : List Lexeme} (h : Begins ts u) :
    (ts.take u.length).map Placed.lexeme = u := by
  rw [List.map_take]
  exact (List.prefix_iff_eq_take.1 h).symm

namespace Fits

variable {c c' : Part} {ts : List Placed} {r : Rest} {u v : List Lexeme}

/-- The parser fails behind `u`, and `u` begins a derivation. -/
theorem behind (d : Derivation c) (hd : ∀ t ∈ d.yield, IsTerminal t) (hu : u <+: d.yield) (hb : Begins ts u) :
    Fits c ts (ts.drop u.length) := by
  refine ⟨ts.take u.length, (List.take_append_drop ..).symm, d, ?_, hd⟩
  rw [hb.map_take]
  exact hu

/-- The parser fails in a part that stands behind `u`, and `v` completes what it is a part of. -/
theorem within (build : Derivation c → Derivation c') (hy : ∀ d, (build d).yield = u ++ (d.yield ++ v))
    (hts : AllTerminal ts) (hv : ∀ t ∈ v, IsTerminal t) (hb : Begins ts u) (h : Fits c (ts.drop u.length) r) :
    Fits c' ts r := by
  obtain ⟨front, hf, d, hp, hd⟩ := h
  refine ⟨ts.take u.length ++ front, ?_, build d, ?_, ?_⟩
  · rw [List.append_assoc, ← hf, List.take_append_drop]
  · rw [List.map_append, hb.map_take, hy]
    obtain ⟨w, hw⟩ := hp
    exact ⟨w ++ v, by rw [← hw]; simp⟩
  · rw [hy]
    simp only [List.forall_mem_append]
    exact ⟨hb.isTerminal hts, hd, hv⟩

end Fits

/-- A name, to complete what has begun. -/
def someAtom : Derivation (.expression 0) := .name (.spelt .ident "a")

def someParens : Derivation .parens := .parens (.mark .lparen) (someAtom.raise 6) (.mark .rparen)

def someBlock : Derivation .block := .block (.mark .lbrace) (.body none .noLine) (.mark .rbrace)

theorem isTerminal_someAtom (tier : Nat) : ∀ t ∈ (someAtom.raise tier).yield, IsTerminal t := by
  rw [Derivation.yield_raise]
  exact List.forall_mem_singleton.2 ⟨by decide, List.all_eq_true.1 (by decide), by decide⟩

theorem isTerminal_mark_rparen : ∀ t ∈ [Lexeme.mark .rparen], IsTerminal t := List.forall_mem_singleton.2 rfl

theorem isTerminal_mark_rbrace : ∀ t ∈ [Lexeme.mark .rbrace], IsTerminal t := List.forall_mem_singleton.2 rfl

theorem isTerminal_someParens : ∀ t ∈ someParens.yield, IsTerminal t := by
  refine List.forall_mem_cons.2 ⟨rfl, List.forall_mem_append.2 ⟨isTerminal_someAtom 6, isTerminal_mark_rparen⟩⟩

theorem isTerminal_someBlock : ∀ t ∈ someBlock.yield, IsTerminal t :=
  List.forall_mem_cons.2 ⟨rfl, isTerminal_mark_rbrace⟩

theorem bind_eq_error {ε α β : Type} {x : Except ε α} {f : α → Except ε β} {e : ε} :
    (x >>= f) = .error e ↔ x = .error e ∨ ∃ a, x = .ok a ∧ f a = .error e := by
  cases x with
  | error e => simp [bind, Except.bind]
  | ok a => simp [bind, Except.bind]

theorem fits_here {c : Part} (d : Derivation c) (hd : ∀ t ∈ d.yield, IsTerminal t) (ts : List Placed) : Fits c ts ts :=
  .behind d hd List.nil_prefix (begins_nil ts)

theorem begins_singleton (t : Placed) (rest : List Placed) : Begins (t :: rest) [t.lexeme] :=
  begins_cons.2 ⟨rfl, begins_nil _⟩

/-- The line end that may stand before the first statement. -/
theorem Fits.body {ts : List Placed} {r : Rest} (hts : AllTerminal ts)
    (h : Fits .lines (ts.drop (if startsWith .newline ts then 1 else 0)) r) : Fits .body ts r := by
  by_cases hn : startsWith .newline ts = true
  · rw [if_pos hn] at h
    obtain ⟨x, hx⟩ := startsWith_begins hn
    exact .within (u := [x.1]) (v := []) (.body (some x)) (fun d => by simp [Derivation.yield]) hts (by simp) hx h
  · rw [if_neg hn] at h
    exact .within (u := []) (v := []) (.body none) (fun d => by simp [Derivation.yield]) hts (by simp) (begins_nil _) h

mutual

theorem fits_expression (tier : Nat) (ts : List Placed) (hts : AllTerminal ts) {r : Rest}
    (h : expression tier ts = .error r) : Fits (.expression tier) ts r := by
  match tier with
  | 0 =>
    rw [expression] at h
    exact fits_atom ts hts h
  | tier + 1 =>
    rw [expression] at h
    rcases bind_eq_error.1 h with h | ⟨⟨left, k⟩, hl, h⟩
    · exact .within (u := []) (v := []) (.chain · .stop) (fun d => by simp [Derivation.yield]) hts (by simp)
        (begins_nil _) (fits_expression tier ts hts h)
    rcases bind_eq_error.1 h with h | ⟨p, -, h⟩
    · obtain ⟨d, hb, -, rfl⟩ := expression_derives tier ts hl
      exact .within (v := []) (.chain d) (fun m => by simp [Derivation.yield]) hts (by simp) hb
        (fits_operators tier left _ (hts.drop _) h)
    · cases h
termination_by (ts.length, 3 * tier + 2)
decreasing_by all_goals exact Prod.lex_def.2 (by grind)

theorem fits_operators (tier : Nat) (left : Node) (ts : List Placed) (hts : AllTerminal ts) {r : Rest}
    (h : operators tier left ts = .error r) : Fits (.operands tier) ts r := by
  match ts with
  | [] =>
    rw [operators] at h
    cases h
  | op :: rest =>
    rw [operators] at h
    split at h
    · next hop =>
      let x : Operator (tier + 1) := ⟨op.lexeme, mem_operatorKinds.2 hop⟩
      rcases bind_eq_error.1 h with h | ⟨⟨right, k⟩, hr, h⟩
      · exact .within (u := [op.lexeme]) (v := []) (.operand x · .stop) (fun d => by simp [Derivation.yield, x]) hts
          (by simp) (begins_singleton op rest) (fits_expression tier rest hts.tail h)
      rcases bind_eq_error.1 h with h | ⟨p, -, h⟩
      · obtain ⟨d, hb, -, rfl⟩ := expression_derives tier rest hr
        exact .within (u := op.lexeme :: d.yield) (v := []) (.operand x d) (fun m => by simp [Derivation.yield, x]) hts
          (by simp) (begins_cons.2 ⟨rfl, hb⟩) (fits_operators tier _ (rest.drop _) (hts.tail.drop _) h)
      · cases h
    · cases h
termination_by (ts.length, 3 * tier + 3)
decreasing_by all_goals exact Prod.lex_def.2 (by grind)

theorem fits_atom (ts : List Placed) (hts : AllTerminal ts) {r : Rest} (h : atom ts = .error r) :
    Fits (.expression 0) ts r := by
  match ts with
  | [] =>
    rw [atom] at h
    obtain rfl := Except.error.inj h
    exact fits_here someAtom (isTerminal_someAtom 0) []
  | t :: rest =>
    rw [atom] at h
    split at h
    · cases h
    · cases h
    · exact .within (u := []) (v := []) .group (fun d => by simp [Derivation.yield]) hts (by simp) (begins_nil _)
        (fits_parenthesised (t :: rest) hts h)
    · next ht =>
      rcases bind_eq_error.1 h with h | ⟨⟨c, i⟩, hc, h⟩
      · exact .within (u := [t.lexeme]) (.choice ⟨t.lexeme, ht⟩ · someBlock) (fun d => by simp [Derivation.yield]) hts
          isTerminal_someBlock (begins_singleton t rest) (fits_parenthesised rest hts.tail h)
      obtain ⟨dc, hcb, -, rfl⟩ := parenthesised_derives rest hc
      rcases bind_eq_error.1 h with h | ⟨⟨y, j⟩, hy, h⟩
      · exact .within (u := t.lexeme :: dc.yield) (v := []) (.choice ⟨t.lexeme, ht⟩ dc)
          (fun d => by simp [Derivation.yield]) hts (by simp) (begins_cons.2 ⟨rfl, hcb⟩)
          (fits_block (rest.drop _) (hts.tail.drop _) h)
      obtain ⟨dy, hyb, -, rfl⟩ := block_derives _ hy
      simp only at h
      split at h
      · next hw =>
        rcases bind_eq_error.1 h with h | ⟨p, -, h⟩
        · obtain ⟨w, hwb⟩ := startsWith_begins hw
          rw [← List.drop_drop] at hwb
          have hb : Begins (t :: rest) (t.lexeme :: (dc.yield ++ (dy.yield ++ [w.1]))) :=
            begins_cons.2 ⟨rfl, begins_append.2 ⟨hcb, begins_append.2 ⟨hyb, hwb⟩⟩⟩
          refine .within (v := []) (.choiceElse ⟨t.lexeme, ht⟩ dc dy w) (fun d => by simp [Derivation.yield]) hts
            (by simp) hb ?_
          have hlen : (t.lexeme :: (dc.yield ++ (dy.yield ++ [w.1]))).length =
              dc.yield.length + dy.yield.length + 1 + 1 := by simp [Nat.add_assoc]
          rw [hlen]
          exact fits_block (rest.drop _) (hts.tail.drop _) h
        · cases h
      · cases h
    · next ht =>
      rcases bind_eq_error.1 h with h | ⟨⟨c, i⟩, hc, h⟩
      · exact .within (u := [t.lexeme]) (.loop ⟨t.lexeme, ht⟩ · someBlock) (fun d => by simp [Derivation.yield]) hts
          isTerminal_someBlock (begins_singleton t rest) (fits_parenthesised rest hts.tail h)
      obtain ⟨dc, hcb, -, rfl⟩ := parenthesised_derives rest hc
      rcases bind_eq_error.1 h with h | ⟨p, -, h⟩
      · exact .within (u := t.lexeme :: dc.yield) (v := []) (.loop ⟨t.lexeme, ht⟩ dc)
          (fun d => by simp [Derivation.yield]) hts (by simp) (begins_cons.2 ⟨rfl, hcb⟩)
          (fits_block (rest.drop _) (hts.tail.drop _) h)
      · cases h
    · obtain rfl := Except.error.inj h
      exact fits_here someAtom (isTerminal_someAtom 0) _
termination_by (ts.length, 1)

theorem fits_parenthesised (ts : List Placed) (hts : AllTerminal ts) {r : Rest} (h : parenthesised ts = .error r) :
    Fits .parens ts r := by
  match ts with
  | [] =>
    rw [parenthesised] at h
    obtain rfl := Except.error.inj h
    exact fits_here someParens isTerminal_someParens []
  | t :: rest =>
    rw [parenthesised] at h
    split at h
    · next ht =>
      rcases bind_eq_error.1 h with h | ⟨⟨e, k⟩, he, h⟩
      · exact .within (u := [t.lexeme]) (v := [Lexeme.mark .rparen]) (.parens ⟨t.lexeme, ht⟩ · (.mark .rparen))
          (fun d => by simp [Derivation.yield]) hts isTerminal_mark_rparen (begins_singleton t rest)
          (fits_expression topTier rest hts.tail h)
      obtain ⟨d, hb, -, rfl⟩ := expression_derives topTier rest he
      simp only at h
      split at h
      · cases h
      · obtain rfl := Except.error.inj h
        have hb' : Begins (t :: rest) (t.lexeme :: d.yield) := begins_cons.2 ⟨rfl, hb⟩
        refine Fits.behind (.parens ⟨t.lexeme, ht⟩ d (.mark .rparen)) ?_ ?_ hb'
        · show ∀ x ∈ (t.lexeme :: d.yield) ++ [Lexeme.mark .rparen], IsTerminal x
          exact List.forall_mem_append.2 ⟨hb'.isTerminal hts, isTerminal_mark_rparen⟩
        · exact List.prefix_append (t.lexeme :: d.yield) _
    · obtain rfl := Except.error.inj h
      exact fits_here someParens isTerminal_someParens _
termination_by (ts.length, 0)

theorem fits_block (ts : List Placed) (hts : AllTerminal ts) {r : Rest} (h : block ts = .error r) :
    Fits .block ts r := by
  match ts with
  | [] =>
    rw [block] at h
    obtain rfl := Except.error.inj h
    exact fits_here someBlock isTerminal_someBlock []
  | t :: rest =>
    rw [block] at h
    split at h
    · next ht =>
      rcases bind_eq_error.1 h with h | ⟨⟨ss, k⟩, hl, h⟩
      · exact .within (u := [t.lexeme]) (v := [Lexeme.mark .rbrace]) (.block ⟨t.lexeme, ht⟩ · (.mark .rbrace))
          (fun d => by simp [Derivation.yield]) hts isTerminal_mark_rbrace (begins_singleton t rest)
          (.body hts.tail (fits_lines _ (hts.tail.drop _) h))
      obtain ⟨d, hb, -, hk⟩ := Derives.body (lines_derives _ hl)
      simp only at h
      rw [← hk] at h
      split at h
      · cases h
      · obtain rfl := Except.error.inj h
        have hb' : Begins (t :: rest) (t.lexeme :: d.yield) := begins_cons.2 ⟨rfl, hb⟩
        refine Fits.behind (.block ⟨t.lexeme, ht⟩ d (.mark .rbrace)) ?_ ?_ hb'
        · show ∀ x ∈ (t.lexeme :: d.yield) ++ [Lexeme.mark .rbrace], IsTerminal x
          exact List.forall_mem_append.2 ⟨hb'.isTerminal hts, isTerminal_mark_rbrace⟩
        · exact List.prefix_append (t.lexeme :: d.yield) _
    · obtain rfl := Except.error.inj h
      exact fits_here someBlock isTerminal_someBlock _
termination_by (ts.length, 0)

theorem fits_statement (ts : List Placed) (hts : AllTerminal ts) {r : Rest} (h : statement ts = .error r) :
    Fits .statement ts r := by
  match ts with
  | [] =>
    rw [statement] at h
    obtain rfl := Except.error.inj h
    exact fits_here (.expr (someAtom.raise 6)) (isTerminal_someAtom 6) []
  | t :: rest =>
    rw [statement] at h
    split at h
    · next ht =>
      obtain ⟨ht, hs⟩ := Bool.and_eq_true_iff.1 ht
      obtain ⟨sign, hsb⟩ := startsWith_begins hs
      rcases bind_eq_error.1 h with h | ⟨p, -, h⟩
      · exact .within (u := [t.lexeme, sign.1]) (v := []) (.assign ⟨t.lexeme, of_decide_eq_true ht⟩ sign)
          (fun d => by simp [Derivation.yield]) hts (by simp) (begins_cons.2 ⟨rfl, hsb⟩)
          (fits_expression topTier (rest.drop 1) (hts.tail.drop 1) h)
      · cases h
    split at h
    · next ht =>
      rcases bind_eq_error.1 h with h | ⟨p, -, h⟩
      · exact .within (u := [t.lexeme]) (v := []) (.print ⟨t.lexeme, ht⟩) (fun d => by simp [Derivation.yield]) hts
          (by simp) (begins_singleton t rest) (fits_expression topTier rest hts.tail h)
      · cases h
    · rcases bind_eq_error.1 h with h | ⟨p, -, h⟩
      · exact .within (u := []) (v := []) .expr (fun d => by simp [Derivation.yield]) hts (by simp) (begins_nil _)
          (fits_expression topTier (t :: rest) hts h)
      · cases h
termination_by (ts.length, 3 * topTier + 3)

theorem fits_lines (ts : List Placed) (hts : AllTerminal ts) {r : Rest} (h : lines ts = .error r) :
    Fits .lines ts r := by
  match ts with
  | [] =>
    rw [lines] at h
    cases h
  | t :: rest =>
    rw [lines] at h
    split at h
    · cases h
    · rcases bind_eq_error.1 h with h | ⟨⟨s, k⟩, hs, h⟩
      · exact .within (u := []) (v := []) .lastLine (fun d => by simp [Derivation.yield]) hts (by simp)
          (begins_nil _) (fits_statement (t :: rest) hts h)
      obtain ⟨d, hb, -, rfl⟩ := statement_derives (t :: rest) hs
      simp only at h
      split at h
      · next hn =>
        rcases bind_eq_error.1 h with h | ⟨p, -, h⟩
        · obtain ⟨nl, hnb⟩ := startsWith_begins hn
          refine .within (u := d.yield ++ [nl.1]) (v := []) (.line d nl) (fun m => by simp [Derivation.yield]) hts
            (by simp) (begins_append.2 ⟨hb, hnb⟩) ?_
          have hm := fits_lines _ ((hts.drop _).drop 1) h
          rw [List.length_append, ← List.drop_drop]
          exact hm
        · cases h
      · cases h
termination_by (ts.length, 3 * topTier + 4)

end

theorem fits_program {ts : List Placed} (hts : AllTerminal ts) {r : Rest} (h : program ts = .error r) :
    Fits .body ts r := by
  rw [program] at h
  rcases bind_eq_error.1 h with h | ⟨⟨ss, k⟩, hl, h⟩
  · exact .body hts (fits_lines _ (hts.drop _) h)
  · obtain ⟨d, hb, -, hk⟩ := Derives.body (lines_derives _ hl)
    simp only at h
    rw [← hk] at h
    split at h
    · cases h
    · obtain rfl := Except.error.inj h
      exact .behind d (hb.isTerminal hts) (List.prefix_refl _) hb

end Strict

end LineLang
