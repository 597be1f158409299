import LineLang.Strict.Parse

/-!
# The grammar of programs

The grammar is given by its derivation trees. A derivation knows the terminals it was made of, in the order of
the text, and the syntax tree that it stands for.

* `operatorKinds tier` : the operators of a tier;
* `Part` : what the grammar has rules for;
* `Derivation c` : the derivations of a part, one constructor for each alternative of its rule;
* `Derivation.yield` : the terminals of a derivation;
* `Derivation.tree` : its syntax tree. Operators of a tier group to the left, parentheses leave no trace;
* `Follows c k` : a terminal of kind `k` may stand behind a part `c` without belonging to it;
* `Derivation.determined` : the beginning of a text that a part can have made is unique, and so is the derivation;
* `Derivation.unambiguous` : derivations with the same terminals are equal.
-/

namespace LineLang.Grammar

open LineLang.Strict (topTier firstToken)

def operatorKinds : Nat → List Kind
  | 1 => [.star, .slash, .percent]
  | 2 => [.plus, .minus]
  | 3 => [.less, .greater, .atMost, .atLeast]
  | 4 => [.equal, .notEqual]
  | 5 => [.either]
  | 6 => [.both]
  | _ => []

abbrev Leaf (k : Kind) := {t : Lexeme // t.kind = k}

abbrev Operator (tier : Nat) := {t : Lexeme // t.kind ∈ operatorKinds tier}

/-- A part of a program for which the grammar has a rule. -/
inductive Part where
  /-- `expression 0` is an atom, `expression topTier` a whole expression. -/
  | expression (tier : Nat)
  /-- `(OPERATOR expression)*` behind an expression of the tier, with operators of the next one. -/
  | operands (tier : Nat)
  /-- `"(" expression ")"` -/
  | parens
  /-- `"{" body "}"` -/
  | block
  | statement
  /-- `(statement NL)* statement?` -/
  | lines
  /-- `NL? lines`; a program is a body. -/
  | body

/-- What a part stands for. Operands take what they follow. -/
@[reducible] def Part.Tree : Part → Type
  | .operands _ => Node → Node
  | .lines => List Node
  | .body => List Node
  | _ => Node

inductive Derivation : Part → Type where
  | name (t : Leaf .ident) : Derivation (.expression 0)
  | number (t : Leaf .num) : Derivation (.expression 0)
  | group (e : Derivation .parens) : Derivation (.expression 0)
  | choice (t : Leaf .ifWord) (condition : Derivation .parens) (yes : Derivation .block) :
    Derivation (.expression 0)
  | choiceElse (t : Leaf .ifWord) (condition : Derivation .parens) (yes : Derivation .block)
    (word : Leaf .elseWord) (no : Derivation .block) : Derivation (.expression 0)
  | loop (t : Leaf .whileWord) (condition : Derivation .parens) (inner : Derivation .block) :
    Derivation (.expression 0)
  | chain {tier : Nat} (head : Derivation (.expression tier)) (more : Derivation (.operands tier)) :
    Derivation (.expression (tier + 1))
  | stop {tier : Nat} : Derivation (.operands tier)
  | operand {tier : Nat} (op : Operator (tier + 1)) (right : Derivation (.expression tier))
    (more : Derivation (.operands tier)) : Derivation (.operands tier)
  | parens (l : Leaf .lparen) (e : Derivation (.expression topTier)) (r : Leaf .rparen) : Derivation .parens
  | block (l : Leaf .lbrace) (content : Derivation .body) (r : Leaf .rbrace) : Derivation .block
  | assign (t : Leaf .ident) (sign : Leaf .assign) (value : Derivation (.expression topTier)) :
    Derivation .statement
  | print (t : Leaf .printWord) (value : Derivation (.expression topTier)) : Derivation .statement
  | expr (e : Derivation (.expression topTier)) : Derivation .statement
  | noLine : Derivation .lines
  | lastLine (s : Derivation .statement) : Derivation .lines
  | line (s : Derivation .statement) (nl : Leaf .newline) (more : Derivation .lines) : Derivation .lines
  | body (start : Option (Leaf .newline)) (content : Derivation .lines) : Derivation .body

namespace Derivation

def yield : {c : Part} → Derivation c → List Lexeme
  | _, .name t => [t.1]
  | _, .number t => [t.1]
  | _, .group e => e.yield
  | _, .choice t condition yes => t.1 :: (condition.yield ++ yes.yield)
  | _, .choiceElse t condition yes word no => t.1 :: (condition.yield ++ (yes.yield ++ word.1 :: no.yield))
  | _, .loop t condition inner => t.1 :: (condition.yield ++ inner.yield)
  | _, .chain head more => head.yield ++ more.yield
  | _, .stop => []
  | _, .operand op right more => op.1 :: (right.yield ++ more.yield)
  | _, .parens l e r => l.1 :: (e.yield ++ [r.1])
  | _, .block l content r => l.1 :: (content.yield ++ [r.1])
  | _, .assign t sign value => t.1 :: sign.1 :: value.yield
  | _, .print t value => t.1 :: value.yield
  | _, .expr e => e.yield
  | _, .noLine => []
  | _, .lastLine s => s.yield
  | _, .line s nl more => s.yield ++ nl.1 :: more.yield
  | _, .body start content => (start.map Subtype.val).toList ++ content.yield

def tree : {c : Part} → Derivation c → c.Tree
  | _, .name t => .ofName t.1
  | _, .number t => .int t.1.token (Numeral.literalValue t.1.text)
  | _, .group e => e.tree
  | _, .choice t condition yes => .cond t.1.token condition.tree yes.tree .missing
  | _, .choiceElse t condition yes _ no => .cond t.1.token condition.tree yes.tree no.tree
  | _, .loop t condition inner => .loop t.1.token condition.tree inner.tree
  | _, .chain head more => more.tree head.tree
  | _, .stop => fun left => left
  | _, .operand op right more => fun left => more.tree (.binary op.1.token left (.str op.1.text) right.tree)
  | _, .parens _ e _ => e.tree
  | _, .block l content _ => .block l.1.token content.tree
  | _, .assign t _ value => .assign t.1.token (.ofName t.1) value.tree
  | _, .print t value => .print t.1.token value.tree
  | _, .expr e => .expr (firstToken e.tree) e.tree
  | _, .noLine => []
  | _, .lastLine s => [s.tree]
  | _, .line s _ more => s.tree :: more.tree
  | _, .body _ content => content.tree

/-- An expression of a tier is one of every looser tier. -/
def raise {tier : Nat} (e : Derivation (.expression tier)) : (n : Nat) → Derivation (.expression (tier + n))
  | 0 => e
  | n + 1 => .chain (e.raise n) .stop

theorem yield_raise {tier : Nat} (e : Derivation (.expression tier)) : ∀ n, (e.raise n).yield = e.yield
  | 0 => rfl
  | n + 1 => by rw [raise, yield, yield_raise e n, yield, List.append_nil]

theorem tree_raise {tier : Nat} (e : Derivation (.expression tier)) : ∀ n, (e.raise n).tree = e.tree
  | 0 => rfl
  | n + 1 => by rw [raise, tree, tree_raise e n, tree]

end Derivation

/-! ## What a part can begin with, and what can stand behind it -/

/-- The kind of the terminal at the front. -/
def next (ts : List Lexeme) : Option Kind := ts.head?.map Lexeme.kind

@[simp] theorem next_nil : next [] = none := rfl

@[simp] theorem next_cons (t : Lexeme) (ts : List Lexeme) : next (t :: ts) = some t.kind := rfl

theorem mem_operatorKinds {k : Kind} {tier : Nat} : k ∈ operatorKinds tier ↔ Strict.tier? k = some tier := by
  unfold operatorKinds
  split <;> cases k <;> simp_all [Strict.tier?, eq_comm]

/-- An operator of a tighter tier has more strength. -/
theorem strength?_eq (k : Kind) : k.strength? = (Strict.tier? k).map fun tier : Nat => 8 - (tier : Int) := by
  cases k <;> rfl

theorem Operator.tier {tier : Nat} (op : Operator tier) : Strict.tier? op.1.kind = some tier :=
  mem_operatorKinds.1 op.2

theorem Leaf.ne {k k' : Kind} (t : Leaf k) (t' : Leaf k') (h : k ≠ k') : t.1 ≠ t'.1 := by
  intro e
  rw [← t.2, ← t'.2, e] at h
  exact h rfl

/-- The kinds of terminals that an expression can begin with. -/
def expressionStarts : List Kind := [.ident, .num, .lparen, .ifWord, .whileWord]

/-- How the terminals of a part begin. A name at the front of an expression has no assignment sign behind it. -/
def Starts : Part → List Lexeme → Prop
  | .expression _, u => ∃ t v, u = t :: v ∧ t.kind ∈ expressionStarts ∧ (t.kind = .ident → next v ≠ some .assign)
  | .operands tier, u => u = [] ∨ ∃ op v, u = op :: v ∧ op.kind ∈ operatorKinds (tier + 1)
  | .parens, u => ∃ t v, u = t :: v ∧ t.kind = .lparen
  | .block, u => ∃ t v, u = t :: v ∧ t.kind = .lbrace
  | .statement, u => ∃ t v, u = t :: v ∧ t.kind ∈ .printWord :: expressionStarts
  | .lines, u => u = [] ∨ ∃ t v, u = t :: v ∧ t.kind ∈ .printWord :: expressionStarts
  | .body, _ => True

/-- What may stand behind a part without belonging to it: no operator of its tiers and no `else` behind an
expression, a line end or a closing brace behind a statement, a closing brace behind the lines of a block. -/
def Follows : Part → Option Kind → Prop
  | .expression tier, k => ∀ x, k = some x → x ≠ .elseWord ∧ ∀ m ≤ tier, x ∉ operatorKinds m
  | .operands tier, k => ∀ x, k = some x → x ≠ .elseWord ∧ ∀ m ≤ tier + 1, x ∉ operatorKinds m
  | .parens, _ => True
  | .block, _ => True
  | .statement, k => k = none ∨ k = some .newline ∨ k = some .rbrace
  | .lines, k => k = none ∨ k = some .rbrace
  | .body, k => k = none ∨ k = some .rbrace

namespace Follows

theorem mono {m n : Nat} {k : Option Kind} (h : Follows (.expression n) k) (hm : m ≤ n) :
    Follows (.expression m) k :=
  fun x hx => ⟨(h x hx).1, fun i hi => (h x hx).2 i (Nat.le_trans hi hm)⟩

/-- A terminal that is neither an operator nor `else` may stand behind any expression. -/
theorem of_not_operator {tier : Nat} {k : Kind} (hk : Strict.tier? k = none) (he : k ≠ .elseWord) :
    Follows (.expression tier) (some k) := by
  intro x hx
  obtain rfl := Option.some.inj hx
  refine ⟨he, fun m _ hm => ?_⟩
  rw [mem_operatorKinds, hk] at hm
  cases hm

theorem of_operator {m n : Nat} {k : Kind} (hk : k ∈ operatorKinds n) (hm : m < n) :
    Follows (.expression m) (some k) := by
  rw [mem_operatorKinds] at hk
  intro x hx
  obtain rfl := Option.some.inj hx
  refine ⟨?_, fun i hi hx => ?_⟩
  · rintro rfl
    simp [Strict.tier?] at hk
  · rw [mem_operatorKinds, hk] at hx
    exact absurd (Option.some.inj hx) (by omega)

theorem expression_of_statement {tier : Nat} {k : Option Kind} (h : Follows .statement k) :
    Follows (.expression tier) k := by
  rcases h with rfl | rfl | rfl
  · intro x hx
    cases hx
  · exact of_not_operator rfl (by decide)
  · exact of_not_operator rfl (by decide)

theorem statement_of_lines {k : Option Kind} (h : Follows .lines k) : Follows .statement k :=
  h.imp_right Or.inr

end Follows

namespace Derivation

theorem starts {c : Part} (d : Derivation c) : Starts c d.yield := by
  induction d with
  | name t => exact ⟨t.1, [], rfl, by simp [expressionStarts, t.2], fun _ => by simp⟩
  | number t => exact ⟨t.1, [], rfl, by simp [expressionStarts, t.2], fun _ => by simp⟩
  | group e ih =>
    obtain ⟨t, v, hu, ht⟩ := ih
    exact ⟨t, v, hu, by simp [expressionStarts, ht], fun hi => by simp [ht] at hi⟩
  | choice t => exact ⟨t.1, _, rfl, by simp [expressionStarts, t.2], fun hi => by simp [t.2] at hi⟩
  | choiceElse t => exact ⟨t.1, _, rfl, by simp [expressionStarts, t.2], fun hi => by simp [t.2] at hi⟩
  | loop t => exact ⟨t.1, _, rfl, by simp [expressionStarts, t.2], fun hi => by simp [t.2] at hi⟩
  | chain head more ihh ihm =>
    obtain ⟨t, v, hu, ht, hv⟩ := ihh
    refine ⟨t, v ++ more.yield, by rw [yield, hu, List.cons_append], ht, fun hi => ?_⟩
    cases v with
    | cons x v => exact hv hi
    | nil =>
      rcases ihm with hm | ⟨op, w, hm, hop⟩
      · simp [hm]
      · rw [hm, List.nil_append, next_cons, ne_eq, Option.some.injEq]
        rintro ha
        simp [ha, mem_operatorKinds, Strict.tier?] at hop
  | stop => exact .inl rfl
  | operand op => exact .inr ⟨op.1, _, rfl, op.2⟩
  | parens l => exact ⟨l.1, _, rfl, l.2⟩
  | block l => exact ⟨l.1, _, rfl, l.2⟩
  | assign t => exact ⟨t.1, _, rfl, by simp [expressionStarts, t.2]⟩
  | print t => exact ⟨t.1, _, rfl, by simp [t.2]⟩
  | expr e ih =>
    obtain ⟨t, v, hu, ht, -⟩ := ih
    exact ⟨t, v, hu, List.mem_cons_of_mem _ ht⟩
  | noLine => exact .inl rfl
  | lastLine s ih => exact .inr ih
  | line s nl more ihs =>
    obtain ⟨t, v, hu, ht⟩ := ihs
    exact .inr ⟨t, v ++ nl.1 :: more.yield, by rw [yield, hu, List.cons_append], ht⟩
  | body => trivial

/-- What stands behind an operand may follow an expression of its tier: an operator of the next tier, or what
follows all operands. -/
theorem follows_operand {tier : Nat} (more : Derivation (.operands tier)) {r : List Lexeme}
    (h : Follows (.operands tier) (next r)) : Follows (.expression tier) (next (more.yield ++ r)) := by
  rcases more.starts with hm | ⟨op, v, hm, hop⟩
  · rw [hm]
    exact Follows.mono (n := tier + 1) h (Nat.le_succ tier)
  · rw [hm]
    exact Follows.of_operator hop (Nat.lt_succ_self tier)

theorem ne_assign (e : Derivation (.expression topTier)) (t : Leaf .ident) (sign : Leaf .assign)
    {r : List Lexeme} (v : List Lexeme) (hr : Follows .statement (next r)) :
    e.yield ++ r ≠ t.1 :: sign.1 :: v := by
  obtain ⟨x, w, hx, -, hi⟩ := e.starts
  rw [hx]
  intro h
  obtain ⟨rfl, hw⟩ := List.cons.inj h
  cases w with
  | cons y w =>
    obtain ⟨rfl, -⟩ := List.cons.inj hw
    exact hi t.2 (congrArg some sign.2)
  | nil =>
    obtain rfl : r = sign.1 :: v := hw
    simp [Follows, sign.2] at hr

theorem ne_print (e : Derivation (.expression topTier)) (t : Leaf .printWord) {r : List Lexeme}
    (v : List Lexeme) : e.yield ++ r ≠ t.1 :: v := by
  obtain ⟨x, w, hx, hs, -⟩ := e.starts
  rw [hx]
  intro h
  obtain ⟨rfl, -⟩ := List.cons.inj h
  simp [expressionStarts, t.2] at hs

theorem ne_of_follows_lines (s : Derivation .statement) {r : List Lexeme} (hr : Follows .lines (next r))
    (v : List Lexeme) : r ≠ s.yield ++ v := by
  obtain ⟨x, w, hx, hs⟩ := s.starts
  rw [hx]
  rintro rfl
  rcases hr with hr | hr
  · cases hr
  · rw [Option.some.inj hr] at hs
    simp [expressionStarts] at hs

/-- Neither lines nor what follows them begin with a line end. -/
theorem ne_newline (ls : Derivation .lines) (nl : Leaf .newline) {r : List Lexeme}
    (hr : Follows .lines (next r)) (v : List Lexeme) : ls.yield ++ r ≠ nl.1 :: v := by
  rcases ls.starts with hl | ⟨x, w, hx, hs⟩
  · rw [hl]
    rintro rfl
    simp [Follows, nl.2] at hr
  · rw [hx]
    intro h
    obtain ⟨rfl, -⟩ := List.cons.inj h
    simp [expressionStarts, nl.2] at hs

/-- At the beginning of a text, no other derivation of its part can stand in the place of `d`, if what stands behind
it may stand there. -/
def Determined {c : Part} (d : Derivation c) : Prop :=
  ∀ (d' : Derivation c) (r r' : List Lexeme), d.yield ++ r = d'.yield ++ r' → Follows c (next r) →
    Follows c (next r') → d = d' ∧ r = r'

namespace Determined

theorem name (t : Leaf .ident) : Determined (.name t) := by
  intro d' r r' h _ _
  cases d' with
  | name t' =>
    obtain ⟨ht, hr⟩ := List.cons.inj h
    exact ⟨by rw [Subtype.ext ht], hr⟩
  | group e' => cases e'; exact absurd (List.cons.inj h).1 (Leaf.ne _ _ (by decide))
  | _ => exact absurd (List.cons.inj h).1 (Leaf.ne _ _ (by decide))

theorem number (t : Leaf .num) : Determined (.number t) := by
  intro d' r r' h _ _
  cases d' with
  | number t' =>
    obtain ⟨ht, hr⟩ := List.cons.inj h
    exact ⟨by rw [Subtype.ext ht], hr⟩
  | group e' => cases e'; exact absurd (List.cons.inj h).1 (Leaf.ne _ _ (by decide))
  | _ => exact absurd (List.cons.inj h).1 (Leaf.ne _ _ (by decide))

theorem group {e : Derivation .parens} (ih : Determined e) : Determined (.group e) := by
  intro d' r r' h _ _
  cases d' with
  | group e' =>
    obtain ⟨rfl, hr⟩ := ih e' r r' h trivial trivial
    exact ⟨rfl, hr⟩
  | _ => cases e; exact absurd (List.cons.inj h).1 (Leaf.ne _ _ (by decide))

theorem choice {condition : Derivation .parens} {yes : Derivation .block} (ihc : Determined condition)
    (ihy : Determined yes) (t : Leaf .ifWord) : Determined (.choice t condition yes) := by
  intro d' r r' h hr _
  cases d' with
  | choice t' condition' yes' =>
    simp only [yield, List.cons_append, List.append_assoc, List.cons.injEq] at h
    obtain ⟨rfl, hy⟩ := ihc _ _ _ h.2 trivial trivial
    obtain ⟨rfl, hr⟩ := ihy _ _ _ hy trivial trivial
    exact ⟨by rw [Subtype.ext h.1], hr⟩
  | choiceElse t' condition' yes' word' no' =>
    simp only [yield, List.cons_append, List.append_assoc, List.cons.injEq] at h
    obtain ⟨rfl, hy⟩ := ihc _ _ _ h.2 trivial trivial
    obtain ⟨rfl, rfl⟩ := ihy _ _ _ hy trivial trivial
    exact absurd word'.2 (hr _ rfl).1
  | group e' => cases e'; exact absurd (List.cons.inj h).1 (Leaf.ne _ _ (by decide))
  | _ => exact absurd (List.cons.inj h).1 (Leaf.ne _ _ (by decide))

theorem choiceElse {condition : Derivation .parens} {yes no : Derivation .block} (ihc : Determined condition)
    (ihy : Determined yes) (ihn : Determined no) (t : Leaf .ifWord) (word : Leaf .elseWord) :
    Determined (.choiceElse t condition yes word no) := by
  intro d' r r' h _ hr'
  cases d' with
  | choice t' condition' yes' =>
    simp only [yield, List.cons_append, List.append_assoc, List.cons.injEq] at h
    obtain ⟨rfl, hy⟩ := ihc _ _ _ h.2 trivial trivial
    obtain ⟨rfl, rfl⟩ := ihy _ _ _ hy trivial trivial
    exact absurd word.2 (hr' _ rfl).1
  | choiceElse t' condition' yes' word' no' =>
    simp only [yield, List.cons_append, List.append_assoc, List.cons.injEq] at h
    obtain ⟨rfl, hy⟩ := ihc _ _ _ h.2 trivial trivial
    obtain ⟨rfl, hn⟩ := ihy _ _ _ hy trivial trivial
    obtain ⟨rfl, hr⟩ := ihn _ _ _ (List.cons.inj hn).2 trivial trivial
    exact ⟨by rw [Subtype.ext h.1, Subtype.ext (List.cons.inj hn).1], hr⟩
  | group e' => cases e'; exact absurd (List.cons.inj h).1 (Leaf.ne _ _ (by decide))
  | _ => exact absurd (List.cons.inj h).1 (Leaf.ne _ _ (by decide))

theorem loop {condition : Derivation .parens} {inner : Derivation .block} (ihc : Determined condition)
    (ihb : Determined inner) (t : Leaf .whileWord) : Determined (.loop t condition inner) := by
  intro d' r r' h _ _
  cases d' with
  | loop t' condition' inner' =>
    simp only [yield, List.cons_append, List.append_assoc, List.cons.injEq] at h
    obtain ⟨rfl, hb⟩ := ihc _ _ _ h.2 trivial trivial
    obtain ⟨rfl, hr⟩ := ihb _ _ _ hb trivial trivial
    exact ⟨by rw [Subtype.ext h.1], hr⟩
  | group e' => cases e'; exact absurd (List.cons.inj h).1 (Leaf.ne _ _ (by decide))
  | _ => exact absurd (List.cons.inj h).1 (Leaf.ne _ _ (by decide))

theorem chain {tier : Nat} {head : Derivation (.expression tier)} {more : Derivation (.operands tier)}
    (ihh : Determined head) (ihm : Determined more) : Determined (.chain head more) := by
  intro d' r r' h hr hr'
  cases d' with
  | chain head' more' =>
    simp only [yield, List.append_assoc] at h
    obtain ⟨rfl, hm⟩ := ihh _ _ _ h (more.follows_operand hr) (more'.follows_operand hr')
    obtain ⟨rfl, hr⟩ := ihm _ _ _ hm hr hr'
    exact ⟨rfl, hr⟩

theorem stop {tier : Nat} : Determined (.stop : Derivation (.operands tier)) := by
  intro d' r r' h hr _
  cases d' with
  | stop => exact ⟨rfl, h⟩
  | operand op' right' more' =>
    obtain rfl : r = op'.1 :: ((right'.yield ++ more'.yield) ++ r') := h
    exact absurd op'.2 ((hr _ rfl).2 _ (Nat.le_refl _))

theorem operand {tier : Nat} {right : Derivation (.expression tier)} {more : Derivation (.operands tier)}
    (ihe : Determined right) (ihm : Determined more) (op : Operator (tier + 1)) :
    Determined (.operand op right more) := by
  intro d' r r' h hr hr'
  cases d' with
  | stop =>
    obtain rfl : op.1 :: ((right.yield ++ more.yield) ++ r) = r' := h
    exact absurd op.2 ((hr' _ rfl).2 _ (Nat.le_refl _))
  | operand op' right' more' =>
    simp only [yield, List.cons_append, List.append_assoc, List.cons.injEq] at h
    obtain ⟨rfl, hm⟩ := ihe _ _ _ h.2 (more.follows_operand hr) (more'.follows_operand hr')
    obtain ⟨rfl, hr⟩ := ihm _ _ _ hm hr hr'
    exact ⟨by rw [Subtype.ext h.1], hr⟩

theorem parens {e : Derivation (.expression topTier)} (ih : Determined e) (l : Leaf .lparen) (rp : Leaf .rparen) :
    Determined (.parens l e rp) := by
  intro d' r r' h _ _
  cases d' with
  | parens l' e' rp' =>
    simp only [yield, List.cons_append, List.append_assoc, List.nil_append, List.cons.injEq] at h
    obtain ⟨rfl, hp⟩ := ih _ _ _ h.2 (Follows.of_not_operator (by rw [rp.2]; rfl) (by rw [rp.2]; decide))
      (Follows.of_not_operator (by rw [rp'.2]; rfl) (by rw [rp'.2]; decide))
    obtain ⟨hp, hr⟩ := List.cons.inj hp
    exact ⟨by rw [Subtype.ext h.1, Subtype.ext hp], hr⟩

theorem block {content : Derivation .body} (ih : Determined content) (l : Leaf .lbrace) (rb : Leaf .rbrace) :
    Determined (.block l content rb) := by
  intro d' r r' h _ _
  cases d' with
  | block l' content' rb' =>
    simp only [yield, List.cons_append, List.append_assoc, List.nil_append, List.cons.injEq] at h
    obtain ⟨rfl, hb⟩ := ih _ _ _ h.2 (.inr (congrArg some rb.2)) (.inr (congrArg some rb'.2))
    obtain ⟨hb, hr⟩ := List.cons.inj hb
    exact ⟨by rw [Subtype.ext h.1, Subtype.ext hb], hr⟩

theorem assign {value : Derivation (.expression topTier)} (ih : Determined value) (t : Leaf .ident)
    (sign : Leaf .assign) : Determined (.assign t sign value) := by
  intro d' r r' h hr hr'
  cases d' with
  | assign t' sign' value' =>
    simp only [yield, List.cons_append, List.cons.injEq] at h
    obtain ⟨rfl, hv⟩ := ih _ _ _ h.2.2 hr.expression_of_statement hr'.expression_of_statement
    exact ⟨by rw [Subtype.ext h.1, Subtype.ext h.2.1], hv⟩
  | print t' value' => exact absurd (List.cons.inj h).1 (Leaf.ne _ _ (by decide))
  | expr e' => exact absurd h.symm (e'.ne_assign t sign _ hr')

theorem print {value : Derivation (.expression topTier)} (ih : Determined value) (t : Leaf .printWord) :
    Determined (.print t value) := by
  intro d' r r' h hr hr'
  cases d' with
  | assign t' sign' value' => exact absurd (List.cons.inj h).1 (Leaf.ne _ _ (by decide))
  | print t' value' =>
    simp only [yield, List.cons_append, List.cons.injEq] at h
    obtain ⟨rfl, hv⟩ := ih _ _ _ h.2 hr.expression_of_statement hr'.expression_of_statement
    exact ⟨by rw [Subtype.ext h.1], hv⟩
  | expr e' => exact absurd h.symm (e'.ne_print t _)

theorem expr {e : Derivation (.expression topTier)} (ih : Determined e) : Determined (.expr e) := by
  intro d' r r' h hr hr'
  cases d' with
  | assign t' sign' value' => exact absurd h (e.ne_assign t' sign' _ hr)
  | print t' value' => exact absurd h (e.ne_print t' _)
  | expr e' =>
    obtain ⟨rfl, hr⟩ := ih _ _ _ h hr.expression_of_statement hr'.expression_of_statement
    exact ⟨rfl, hr⟩

theorem noLine : Determined .noLine := by
  intro d' r r' h hr _
  cases d' with
  | noLine => exact ⟨rfl, h⟩
  | lastLine s' => exact absurd h (s'.ne_of_follows_lines hr _)
  | line s' nl' more' =>
    simp only [yield, List.append_assoc] at h
    exact absurd h (s'.ne_of_follows_lines hr _)

theorem lastLine {s : Derivation .statement} (ih : Determined s) : Determined (.lastLine s) := by
  intro d' r r' h hr hr'
  cases d' with
  | noLine => exact absurd h.symm (s.ne_of_follows_lines hr' _)
  | lastLine s' =>
    obtain ⟨rfl, hr⟩ := ih _ _ _ h hr.statement_of_lines hr'.statement_of_lines
    exact ⟨rfl, hr⟩
  | line s' nl' more' =>
    simp only [yield, List.append_assoc] at h
    obtain ⟨rfl, rfl⟩ := ih _ _ _ h hr.statement_of_lines (.inr (.inl (congrArg some nl'.2)))
    simp [Follows, nl'.2] at hr

theorem line {s : Derivation .statement} {more : Derivation .lines} (ihs : Determined s) (ihm : Determined more)
    (nl : Leaf .newline) : Determined (.line s nl more) := by
  intro d' r r' h hr hr'
  cases d' with
  | noLine =>
    simp only [yield, List.append_assoc] at h
    exact absurd h.symm (s.ne_of_follows_lines hr' _)
  | lastLine s' =>
    simp only [yield, List.append_assoc] at h
    obtain ⟨rfl, rfl⟩ := ihs _ _ _ h (.inr (.inl (congrArg some nl.2))) hr'.statement_of_lines
    simp [Follows, nl.2] at hr'
  | line s' nl' more' =>
    simp only [yield, List.append_assoc] at h
    obtain ⟨rfl, hm⟩ := ihs _ _ _ h (.inr (.inl (congrArg some nl.2))) (.inr (.inl (congrArg some nl'.2)))
    obtain ⟨rfl, hr⟩ := ihm _ _ _ (List.cons.inj hm).2 hr hr'
    exact ⟨by rw [Subtype.ext (List.cons.inj hm).1], hr⟩

theorem body {content : Derivation .lines} (ih : Determined content) (start : Option (Leaf .newline)) :
    Determined (.body start content) := by
  intro d' r r' h hr hr'
  cases d' with
  | body start' content' =>
    cases start with
    | none =>
      cases start' with
      | none =>
        obtain ⟨rfl, hr⟩ := ih _ _ _ h hr hr'
        exact ⟨rfl, hr⟩
      | some nl' => exact absurd h (content.ne_newline nl' hr _)
    | some nl =>
      cases start' with
      | none => exact absurd h.symm (content'.ne_newline nl hr' _)
      | some nl' =>
        obtain ⟨hn, h⟩ := List.cons.inj h
        obtain ⟨rfl, hr⟩ := ih _ _ _ h hr hr'
        obtain rfl : nl = nl' := Subtype.ext hn
        exact ⟨rfl, hr⟩

end Determined

/-- The derivation of a part at the beginning of a text is determined. Alternatives of one rule differ in the first
terminal, or in the terminal behind what they share. -/
theorem determined {c : Part} (d : Derivation c) : Determined d := by
  induction d with
  | name t => exact .name t
  | number t => exact .number t
  | group e ih => exact ih.group
  | choice t condition yes ihc ihy => exact ihc.choice ihy t
  | choiceElse t condition yes word no ihc ihy ihn => exact ihc.choiceElse ihy ihn t word
  | loop t condition inner ihc ihb => exact ihc.loop ihb t
  | chain head more ihh ihm => exact ihh.chain ihm
  | stop => exact .stop
  | operand op right more ihe ihm => exact ihe.operand ihm op
  | parens l e r ih => exact ih.parens l r
  | block l content r ih => exact ih.block l r
  | assign t sign value ih => exact ih.assign t sign
  | print t value ih => exact ih.print t
  | expr e ih => exact ih.expr
  | noLine => exact .noLine
  | lastLine s ih => exact ih.lastLine
  | line s nl more ihs ihm => exact ihs.line ihm nl
  | body start content ih => exact ih.body start

/-- The grammar is unambiguous: the terminals of a derivation determine it. -/
theorem unambiguous {c : Part} (d d' : Derivation c) (h : d.yield = d'.yield) : d = d' := by
  have hf : Follows c none := by
    cases c <;> first | trivial | exact .inl rfl | exact fun x hx => absurd hx (by simp)
  exact (d.determined d' [] [] (by rw [h]) hf hf).1

end Derivation

end LineLang.Grammar
