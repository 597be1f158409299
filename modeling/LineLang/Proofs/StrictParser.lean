import LineLang.Proofs.Grammar
import LineLang.Proofs.Terminals

/-!
# The strict parser and the grammar

The strict parser accepts the texts that the grammar derives, and its trees are those of the derivations.

* `Begins ts u` : the placed terminals `ts` begin with the terminals `u`;
* `Derives c ts t k` : the first `k` of the terminals `ts` are derived from the part `c`, with the tree `t`. There is
  one rule for each alternative of the grammar;
* `expression_derives`, `statement_derives`, `lines_derives` : what the parser reads is derived;
* `Reads d ts` : the parser reads the derivation `d` at the front of `ts`;
* `readable` : it does so wherever that derivation stands in front of what may follow it;
* `parse_eq_ok_iff`, `parse_iff_unique_derivation` : the two directions for whole texts.
-/

namespace LineLang.Strict

open Grammar

def Begins (ts : List Placed) (u : List Lexeme) : Prop := u <+: ts.map Placed.lexeme

/-- The kind of the terminal at the front. -/
def front (ts : List Placed) : Option Kind := next (ts.map Placed.lexeme)

theorem startsWith_iff {k : Kind} {ts : List Placed} : startsWith k ts = true ↔ front ts = some k := by
  cases ts <;> simp [startsWith, front]

theorem begins_nil (ts : List Placed) : Begins ts [] := List.nil_prefix

theorem begins_cons {t : Placed} {ts : List Placed} {x : Lexeme} {u : List Lexeme} :
    Begins (t :: ts) (x :: u) ↔ x = t.lexeme ∧ Begins ts u := List.cons_prefix_cons

theorem begins_append {ts : List Placed} {u v : List Lexeme} :
    Begins ts (u ++ v) ↔ Begins ts u ∧ Begins (ts.drop u.length) v := by
  constructor
  · rintro ⟨r, hr⟩
    refine ⟨⟨v ++ r, by rw [← hr, List.append_assoc]⟩, ⟨r, ?_⟩⟩
    rw [List.map_drop, ← hr, List.append_assoc, List.drop_left]
  · rintro ⟨⟨r, hr⟩, hv⟩
    rw [Begins, List.map_drop, ← hr, List.drop_left] at hv
    obtain ⟨r', rfl⟩ := hv
    exact ⟨r', by rw [← hr, List.append_assoc]⟩

theorem Begins.split {ts : List Placed} {u : List Lexeme} (h : Begins ts u) :
    ts.map Placed.lexeme = u ++ (ts.drop u.length).map Placed.lexeme := by
  obtain ⟨r, hr⟩ := h
  rw [List.map_drop, ← hr, List.drop_left]

theorem begins_head {ts : List Placed} {x : Lexeme} {u : List Lexeme} :
    Begins ts (x :: u) ↔ Begins ts [x] ∧ Begins (ts.drop 1) u := by
  rw [← List.singleton_append, begins_append]
  rfl

theorem startsWith_begins {k : Kind} {ts : List Placed} (h : startsWith k ts = true) :
    ∃ x : Leaf k, Begins ts [x.1] := by
  cases ts with
  | nil => cases h
  | cons t ts => exact ⟨⟨t.lexeme, by simpa [startsWith] using h⟩, begins_cons.2 ⟨rfl, begins_nil _⟩⟩

/-! ## What the parser reads is derived -/

def Derives (c : Part) (ts : List Placed) (t : c.Tree) (k : Nat) : Prop :=
  ∃ d : Derivation c, Begins ts d.yield ∧ d.tree = t ∧ d.yield.length = k

namespace Derives

variable {ts rest : List Placed} {t : Placed} {e : Node} {tier k j i : Nat}

theorem name (h : t.kind = .ident) : Derives (.expression 0) (t :: rest) (.ofName t.lexeme) 1 :=
  ⟨.name ⟨t.lexeme, h⟩, begins_cons.2 ⟨rfl, begins_nil _⟩, rfl, rfl⟩

theorem number (h : t.kind = .num) :
    Derives (.expression 0) (t :: rest) (.int t.lexeme.token (Numeral.literalValue t.lexeme.text)) 1 :=
  ⟨.number ⟨t.lexeme, h⟩, begins_cons.2 ⟨rfl, begins_nil _⟩, rfl, rfl⟩

theorem group (h : Derives .parens ts e k) : Derives (.expression 0) ts e k := by
  obtain ⟨d, hb, ht, hk⟩ := h
  exact ⟨.group d, hb, ht, hk⟩

theorem choice {condition yes : Node} (h : t.kind = .ifWord) (hc : Derives .parens rest condition k)
    (hy : Derives .block (rest.drop k) yes j) :
    Derives (.expression 0) (t :: rest) (.cond t.lexeme.token condition yes .missing) (1 + k + j) := by
  obtain ⟨c, hcb, rfl, rfl⟩ := hc
  obtain ⟨y, hyb, rfl, rfl⟩ := hy
  refine ⟨.choice ⟨t.lexeme, h⟩ c y, begins_cons.2 ⟨rfl, begins_append.2 ⟨hcb, hyb⟩⟩, rfl, ?_⟩
  simp only [Derivation.yield, List.length_cons, List.length_append]
  omega

theorem choiceElse {condition yes no : Node} (h : t.kind = .ifWord) (hc : Derives .parens rest condition k)
    (hy : Derives .block (rest.drop k) yes j) (hw : startsWith .elseWord (rest.drop (k + j)) = true)
    (hn : Derives .block (rest.drop (k + j + 1)) no i) :
    Derives (.expression 0) (t :: rest) (.cond t.lexeme.token condition yes no) (2 + k + j + i) := by
  obtain ⟨c, hcb, rfl, rfl⟩ := hc
  obtain ⟨y, hyb, rfl, rfl⟩ := hy
  obtain ⟨n, hnb, rfl, rfl⟩ := hn
  obtain ⟨w, hwb⟩ := startsWith_begins hw
  rw [← List.drop_drop] at hwb
  rw [← List.drop_drop, ← List.drop_drop] at hnb
  refine ⟨.choiceElse ⟨t.lexeme, h⟩ c y w n, begins_cons.2 ⟨rfl, ?_⟩, rfl, ?_⟩
  · exact begins_append.2 ⟨hcb, begins_append.2 ⟨hyb, begins_head.2 ⟨hwb, hnb⟩⟩⟩
  · simp only [Derivation.yield, List.length_cons, List.length_append]
    omega

theorem loop {condition body : Node} (h : t.kind = .whileWord) (hc : Derives .parens rest condition k)
    (hb : Derives .block (rest.drop k) body j) :
    Derives (.expression 0) (t :: rest) (.loop t.lexeme.token condition body) (1 + k + j) := by
  obtain ⟨c, hcb, rfl, rfl⟩ := hc
  obtain ⟨b, hbb, rfl, rfl⟩ := hb
  refine ⟨.loop ⟨t.lexeme, h⟩ c b, begins_cons.2 ⟨rfl, begins_append.2 ⟨hcb, hbb⟩⟩, rfl, ?_⟩
  simp only [Derivation.yield, List.length_cons, List.length_append]
  omega

theorem chain {f : Node → Node} (hh : Derives (.expression tier) ts e k)
    (hm : Derives (.operands tier) (ts.drop k) f j) : Derives (.expression (tier + 1)) ts (f e) (k + j) := by
  obtain ⟨d, hdb, rfl, rfl⟩ := hh
  obtain ⟨m, hmb, rfl, rfl⟩ := hm
  exact ⟨.chain d m, begins_append.2 ⟨hdb, hmb⟩, rfl, List.length_append⟩

theorem stop : Derives (.operands tier) ts (fun left => left) 0 := ⟨.stop, begins_nil _, rfl, rfl⟩

theorem operand {f : Node → Node} (h : tier? t.kind = some (tier + 1)) (he : Derives (.expression tier) rest e k)
    (hm : Derives (.operands tier) (rest.drop k) f j) :
    Derives (.operands tier) (t :: rest) (fun left => f (.binary t.lexeme.token left (.str t.lexeme.text) e))
      (1 + k + j) := by
  obtain ⟨d, hdb, rfl, rfl⟩ := he
  obtain ⟨m, hmb, rfl, rfl⟩ := hm
  refine ⟨.operand ⟨t.lexeme, mem_operatorKinds.2 h⟩ d m, begins_cons.2 ⟨rfl, begins_append.2 ⟨hdb, hmb⟩⟩, rfl, ?_⟩
  simp only [Derivation.yield, List.length_cons, List.length_append]
  omega

theorem parens (h : t.kind = .lparen) (he : Derives (.expression topTier) rest e k)
    (hr : startsWith .rparen (rest.drop k) = true) : Derives .parens (t :: rest) e (k + 2) := by
  obtain ⟨d, hdb, rfl, rfl⟩ := he
  obtain ⟨r, hrb⟩ := startsWith_begins hr
  refine ⟨.parens ⟨t.lexeme, h⟩ d r, begins_cons.2 ⟨rfl, begins_append.2 ⟨hdb, hrb⟩⟩, rfl, ?_⟩
  simp only [Derivation.yield, List.length_cons, List.length_append, List.length_nil]

theorem block {ss : List Node} (h : t.kind = .lbrace) (hb : Derives .body rest ss k)
    (hr : startsWith .rbrace (rest.drop k) = true) :
    Derives .block (t :: rest) (.block t.lexeme.token ss) (k + 2) := by
  obtain ⟨d, hdb, rfl, rfl⟩ := hb
  obtain ⟨r, hrb⟩ := startsWith_begins hr
  refine ⟨.block ⟨t.lexeme, h⟩ d r, begins_cons.2 ⟨rfl, begins_append.2 ⟨hdb, hrb⟩⟩, rfl, ?_⟩
  simp only [Derivation.yield, List.length_cons, List.length_append, List.length_nil]

theorem assign (h : t.kind = .ident) (hs : startsWith .assign rest = true)
    (he : Derives (.expression topTier) (rest.drop 1) e k) :
    Derives .statement (t :: rest) (.assign t.lexeme.token (.ofName t.lexeme) e) (k + 2) := by
  obtain ⟨d, hdb, rfl, rfl⟩ := he
  obtain ⟨x, hxb⟩ := startsWith_begins hs
  exact ⟨.assign ⟨t.lexeme, h⟩ x d, begins_cons.2 ⟨rfl, begins_head.2 ⟨hxb, hdb⟩⟩, rfl, rfl⟩

theorem print (h : t.kind = .printWord) (he : Derives (.expression topTier) rest e k) :
    Derives .statement (t :: rest) (.print t.lexeme.token e) (k + 1) := by
  obtain ⟨d, hdb, rfl, rfl⟩ := he
  exact ⟨.print ⟨t.lexeme, h⟩ d, begins_cons.2 ⟨rfl, hdb⟩, rfl, rfl⟩

theorem expr (he : Derives (.expression topTier) ts e k) : Derives .statement ts (.expr (firstToken e) e) k := by
  obtain ⟨d, hdb, rfl, rfl⟩ := he
  exact ⟨.expr d, hdb, rfl, rfl⟩

theorem noLine : Derives .lines ts [] 0 := ⟨.noLine, begins_nil _, rfl, rfl⟩

theorem lastLine (hs : Derives .statement ts e k) : Derives .lines ts [e] k := by
  obtain ⟨d, hdb, rfl, rfl⟩ := hs
  exact ⟨.lastLine d, hdb, rfl, rfl⟩

theorem line {ss : List Node} (hs : Derives .statement ts e k) (hn : startsWith .newline (ts.drop k) = true)
    (hm : Derives .lines ((ts.drop k).drop 1) ss j) : Derives .lines ts (e :: ss) (k + 1 + j) := by
  obtain ⟨d, hdb, rfl, rfl⟩ := hs
  obtain ⟨m, hmb, rfl, rfl⟩ := hm
  obtain ⟨x, hxb⟩ := startsWith_begins hn
  refine ⟨.line d x m, begins_append.2 ⟨hdb, begins_head.2 ⟨hxb, hmb⟩⟩, rfl, ?_⟩
  simp only [Derivation.yield, List.length_cons, List.length_append]
  omega

/-- The line end that may stand before the first statement. -/
theorem body {ss : List Node} (hl : Derives .lines (ts.drop (if startsWith .newline ts then 1 else 0)) ss k) :
    Derives .body ts ss ((if startsWith .newline ts then 1 else 0) + k) := by
  obtain ⟨d, hdb, rfl, rfl⟩ := hl
  by_cases hn : startsWith .newline ts = true
  · obtain ⟨x, hxb⟩ := startsWith_begins hn
    rw [if_pos hn] at hdb ⊢
    exact ⟨.body (some x) d, begins_head.2 ⟨hxb, hdb⟩, rfl, Nat.add_comm _ _⟩
  · rw [if_neg hn] at hdb ⊢
    exact ⟨.body none d, hdb, rfl, (Nat.zero_add _).symm⟩

end Derives

theorem bind_eq_ok {ε α β : Type} {x : Except ε α} {f : α → Except ε β} {b : β} :
    (x >>= f) = .ok b ↔ ∃ a, x = .ok a ∧ f a = .ok b := by
  cases x with
  | error e => simp [bind, Except.bind]
  | ok a => simp [bind, Except.bind]

mutual

theorem expression_derives (tier : Nat) (ts : List Placed) {e : Node} {k : Nat}
    (h : expression tier ts = .ok (e, k)) : Derives (.expression tier) ts e k := by
  match tier with
  | 0 =>
    rw [expression] at h
    exact atom_derives ts h
  | tier + 1 =>
    rw [expression, bind_eq_ok] at h
    obtain ⟨⟨left, i⟩, hl, h⟩ := h
    obtain ⟨⟨e', j⟩, ho, h⟩ := bind_eq_ok.1 h
    obtain ⟨rfl, rfl⟩ := Prod.mk.inj (Except.ok.inj h)
    obtain ⟨f, hf, rfl⟩ := operators_derives tier left (ts.drop i) ho
    exact (expression_derives tier ts hl).chain hf
termination_by (ts.length, 3 * tier + 2)
decreasing_by all_goals exact Prod.lex_def.2 (by grind)

theorem operators_derives (tier : Nat) (left : Node) (ts : List Placed) {e : Node} {k : Nat}
    (h : operators tier left ts = .ok (e, k)) : ∃ f, Derives (.operands tier) ts f k ∧ f left = e := by
  match ts with
  | [] =>
    rw [operators] at h
    obtain ⟨rfl, rfl⟩ := Prod.mk.inj (Except.ok.inj h)
    exact ⟨_, .stop, rfl⟩
  | op :: rest =>
    rw [operators] at h
    split at h
    · next hop =>
      obtain ⟨⟨right, i⟩, hr, h⟩ := bind_eq_ok.1 h
      obtain ⟨⟨e', j⟩, ho, h⟩ := bind_eq_ok.1 h
      obtain ⟨rfl, rfl⟩ := Prod.mk.inj (Except.ok.inj h)
      obtain ⟨f, hf, rfl⟩ := operators_derives tier _ (rest.drop i) ho
      exact ⟨_, .operand hop (expression_derives tier rest hr) hf, rfl⟩
    · obtain ⟨rfl, rfl⟩ := Prod.mk.inj (Except.ok.inj h)
      exact ⟨_, .stop, rfl⟩
termination_by (ts.length, 3 * tier + 3)
decreasing_by all_goals exact Prod.lex_def.2 (by grind)

theorem atom_derives (ts : List Placed) {e : Node} {k : Nat} (h : atom ts = .ok (e, k)) :
    Derives (.expression 0) ts e k := by
  match ts with
  | [] =>
    rw [atom] at h
    cases h
  | t :: rest =>
    rw [atom] at h
    split at h
    · next ht =>
      obtain ⟨rfl, rfl⟩ := Prod.mk.inj (Except.ok.inj h)
      exact .name ht
    · next ht =>
      obtain ⟨rfl, rfl⟩ := Prod.mk.inj (Except.ok.inj h)
      exact .number ht
    · exact (parenthesised_derives (t :: rest) h).group
    · next ht =>
      obtain ⟨⟨c, i⟩, hc, h⟩ := bind_eq_ok.1 h
      obtain ⟨⟨y, j⟩, hy, h⟩ := bind_eq_ok.1 h
      have hcd := parenthesised_derives rest hc
      have hyd := block_derives (rest.drop i) hy
      simp only at h
      split at h
      · next hw =>
        obtain ⟨⟨n, l⟩, hn, h⟩ := bind_eq_ok.1 h
        obtain ⟨rfl, rfl⟩ := Prod.mk.inj (Except.ok.inj h)
        exact .choiceElse ht hcd hyd hw (block_derives (rest.drop (i + j + 1)) hn)
      · obtain ⟨rfl, rfl⟩ := Prod.mk.inj (Except.ok.inj h)
        exact .choice ht hcd hyd
    · next ht =>
      obtain ⟨⟨c, i⟩, hc, h⟩ := bind_eq_ok.1 h
      obtain ⟨⟨b, j⟩, hb, h⟩ := bind_eq_ok.1 h
      obtain ⟨rfl, rfl⟩ := Prod.mk.inj (Except.ok.inj h)
      exact .loop ht (parenthesised_derives rest hc) (block_derives (rest.drop i) hb)
    · cases h
termination_by (ts.length, 1)

theorem parenthesised_derives (ts : List Placed) {e : Node} {k : Nat} (h : parenthesised ts = .ok (e, k)) :
    Derives .parens ts e k := by
  match ts with
  | [] =>
    rw [parenthesised] at h
    cases h
  | t :: rest =>
    rw [parenthesised] at h
    split at h
    · next ht =>
      obtain ⟨⟨e', i⟩, he, h⟩ := bind_eq_ok.1 h
      simp only at h
      split at h
      · next hr =>
        obtain ⟨rfl, rfl⟩ := Prod.mk.inj (Except.ok.inj h)
        exact .parens ht (expression_derives topTier rest he) hr
      · cases h
    · cases h
termination_by (ts.length, 0)

theorem block_derives (ts : List Placed) {e : Node} {k : Nat} (h : block ts = .ok (e, k)) :
    Derives .block ts e k := by
  match ts with
  | [] =>
    rw [block] at h
    cases h
  | t :: rest =>
    rw [block] at h
    split at h
    · next ht =>
      obtain ⟨⟨ss, i⟩, hl, h⟩ := bind_eq_ok.1 h
      have hb := Derives.body (lines_derives _ hl)
      simp only at h
      generalize (if startsWith .newline rest = true then 1 else 0) = start at h hb
      split at h
      · next hr =>
        obtain ⟨rfl, rfl⟩ := Prod.mk.inj (Except.ok.inj h)
        exact .block ht hb hr
      · cases h
    · cases h
termination_by (ts.length, 0)

theorem statement_derives (ts : List Placed) {e : Node} {k : Nat} (h : statement ts = .ok (e, k)) :
    Derives .statement ts e k := by
  match ts with
  | [] =>
    rw [statement] at h
    cases h
  | t :: rest =>
    rw [statement] at h
    split at h
    · next ht =>
      obtain ⟨ht, hs⟩ := Bool.and_eq_true_iff.1 ht
      obtain ⟨⟨v, i⟩, hv, h⟩ := bind_eq_ok.1 h
      obtain ⟨rfl, rfl⟩ := Prod.mk.inj (Except.ok.inj h)
      exact .assign (of_decide_eq_true ht) hs (expression_derives topTier _ hv)
    split at h
    · next ht =>
      obtain ⟨⟨v, i⟩, hv, h⟩ := bind_eq_ok.1 h
      obtain ⟨rfl, rfl⟩ := Prod.mk.inj (Except.ok.inj h)
      exact .print ht (expression_derives topTier _ hv)
    · obtain ⟨⟨v, i⟩, hv, h⟩ := bind_eq_ok.1 h
      obtain ⟨rfl, rfl⟩ := Prod.mk.inj (Except.ok.inj h)
      exact .expr (expression_derives topTier (t :: rest) hv)
termination_by (ts.length, 3 * topTier + 3)

theorem lines_derives (ts : List Placed) {ss : List Node} {k : Nat} (h : lines ts = .ok (ss, k)) :
    Derives .lines ts ss k := by
  match ts with
  | [] =>
    rw [lines] at h
    obtain ⟨rfl, rfl⟩ := Prod.mk.inj (Except.ok.inj h)
    exact .noLine
  | t :: rest =>
    rw [lines] at h
    split at h
    · obtain ⟨rfl, rfl⟩ := Prod.mk.inj (Except.ok.inj h)
      exact .noLine
    · obtain ⟨⟨s, i⟩, hs, h⟩ := bind_eq_ok.1 h
      have hsd := statement_derives (t :: rest) hs
      simp only at h
      split at h
      · next hn =>
        obtain ⟨⟨more, j⟩, hm, h⟩ := bind_eq_ok.1 h
        obtain ⟨rfl, rfl⟩ := Prod.mk.inj (Except.ok.inj h)
        exact .line hsd hn (lines_derives _ hm)
      · obtain ⟨rfl, rfl⟩ := Prod.mk.inj (Except.ok.inj h)
        exact .lastLine hsd
termination_by (ts.length, 3 * topTier + 4)

end

/-! ## What is derived is read -/

def Reads : {c : Part} → Derivation c → List Placed → Prop
  | .expression tier, d, ts => expression tier ts = .ok (d.tree, d.yield.length)
  | .operands tier, d, ts => ∀ left, operators tier left ts = .ok (d.tree left, d.yield.length)
  | .parens, d, ts => parenthesised ts = .ok (d.tree, d.yield.length)
  | .block, d, ts => block ts = .ok (d.tree, d.yield.length)
  | .statement, d, ts => statement ts = .ok (d.tree, d.yield.length)
  | .lines, d, ts => lines ts = .ok (d.tree, d.yield.length)
  | .body, d, ts => ∃ k, lines (ts.drop (if startsWith .newline ts then 1 else 0)) = .ok (d.tree, k) ∧
      (if startsWith .newline ts then 1 else 0) + k = d.yield.length

theorem Begins.inv {ts : List Placed} {x : Lexeme} {u : List Lexeme} (h : Begins ts (x :: u)) :
    ∃ t rest, ts = t :: rest ∧ t.lexeme = x ∧ Begins rest u := by
  cases ts with
  | nil => exact absurd (List.prefix_nil.1 h) (List.cons_ne_nil _ _)
  | cons t rest => exact ⟨t, rest, rfl, (begins_cons.1 h).1.symm, (begins_cons.1 h).2⟩

theorem Begins.leaf {k : Kind} {ts : List Placed} {x : Leaf k} {u : List Lexeme} (h : Begins ts (x.1 :: u)) :
    ∃ t rest, ts = t :: rest ∧ t.lexeme = x.1 ∧ t.kind = k ∧ Begins rest u := by
  obtain ⟨t, rest, rfl, hx, hb⟩ := h.inv
  exact ⟨t, rest, rfl, hx, by rw [Placed.kind, hx, x.2], hb⟩

theorem Begins.startsWith {k : Kind} {ts : List Placed} {x : Leaf k} {u : List Lexeme} (h : Begins ts (x.1 :: u)) :
    startsWith k ts = true := by
  obtain ⟨t, rest, rfl, -, hk, -⟩ := h.leaf
  exact decide_eq_true hk

theorem front_drop {ts : List Placed} {u v : List Lexeme} (h : Begins ts (u ++ v)) :
    front (ts.drop u.length) = next (v ++ (ts.drop (u ++ v).length).map Placed.lexeme) := by
  rw [front, (begins_append.1 h).2.split, List.drop_drop, ← List.length_append]

theorem ok_bind {ε α β : Type} (a : α) (f : α → Except ε β) : (Except.ok a >>= f) = f a := rfl

theorem begins_not_rbrace (s : Derivation .statement) {ts : List Placed} (h : Begins ts s.yield) :
    ∃ t rest, ts = t :: rest ∧ ¬ t.kind = .rbrace := by
  obtain ⟨x, v, hv, hx⟩ := s.starts
  rw [hv] at h
  obtain ⟨t, rest, rfl, rfl, -⟩ := h.inv
  refine ⟨t, rest, rfl, fun hk => ?_⟩
  rw [Placed.kind] at hk
  rw [hk] at hx
  exact absurd hx (by decide)

/-- The parser reads the derivation `d` wherever it stands in front of what may follow it. -/
def Readable {c : Part} (d : Derivation c) : Prop :=
  ∀ ts : List Placed, Begins ts d.yield → Follows c (front (ts.drop d.yield.length)) → Reads d ts

namespace Readable

theorem name (x : Leaf .ident) : Readable (.name x) := by
  intro ts hb _
  obtain ⟨t, rest, rfl, hx, hk, -⟩ := hb.leaf
  show expression 0 (t :: rest) = _
  rw [expression, atom]
  simp [hk, hx, Derivation.tree, Derivation.yield]

theorem number (x : Leaf .num) : Readable (.number x) := by
  intro ts hb _
  obtain ⟨t, rest, rfl, hx, hk, -⟩ := hb.leaf
  show expression 0 (t :: rest) = _
  rw [expression, atom]
  simp [hk, hx, Derivation.tree, Derivation.yield]

theorem group {e : Derivation .parens} (ih : Readable e) : Readable (.group e) := by
  intro ts hb _
  have he : parenthesised ts = .ok (e.tree, e.yield.length) := ih ts hb trivial
  cases e with
  | parens l e r =>
    obtain ⟨t, rest, rfl, -, hk, -⟩ := hb.leaf
    show expression 0 (t :: rest) = _
    rw [expression, atom]
    simp only [hk]
    exact he

theorem choice {condition : Derivation .parens} {yes : Derivation .block} (ihc : Readable condition)
    (ihy : Readable yes) (x : Leaf .ifWord) : Readable (.choice x condition yes) := by
  intro ts hb hf
  obtain ⟨t, rest, rfl, hx, hk, hb⟩ := hb.leaf
  obtain ⟨hcb, hyb⟩ := begins_append.1 hb
  have hc : parenthesised rest = .ok (condition.tree, condition.yield.length) := ihc rest hcb trivial
  have hy : block (rest.drop condition.yield.length) = .ok (yes.tree, yes.yield.length) := ihy _ hyb trivial
  have hw : ¬ startsWith .elseWord (rest.drop (condition.yield.length + yes.yield.length)) = true := by
    intro hw
    rw [startsWith_iff, ← List.length_append] at hw
    exact (hf _ hw).1 rfl
  show expression 0 (t :: rest) = _
  rw [expression, atom]
  simp only [hk, hc, hy, ok_bind, if_neg hw]
  simp only [hx, Derivation.tree, Derivation.yield, List.length_cons, List.length_append, pure, Except.pure]
  congr 2
  omega

theorem choiceElse {condition : Derivation .parens} {yes no : Derivation .block} (ihc : Readable condition)
    (ihy : Readable yes) (ihn : Readable no) (x : Leaf .ifWord) (word : Leaf .elseWord) :
    Readable (.choiceElse x condition yes word no) := by
  intro ts hb hf
  obtain ⟨t, rest, rfl, hx, hk, hb⟩ := hb.leaf
  obtain ⟨hcb, hyb⟩ := begins_append.1 hb
  obtain ⟨hyb, hwb⟩ := begins_append.1 hyb
  have hc : parenthesised rest = .ok (condition.tree, condition.yield.length) := ihc rest hcb trivial
  have hy : block (rest.drop condition.yield.length) = .ok (yes.tree, yes.yield.length) := ihy _ hyb trivial
  have hn : block (((rest.drop condition.yield.length).drop yes.yield.length).drop 1) =
      .ok (no.tree, no.yield.length) := ihn _ (begins_head.1 hwb).2 trivial
  rw [List.drop_drop, List.drop_drop] at hn
  have hw := hwb.startsWith
  rw [List.drop_drop] at hw
  show expression 0 (t :: rest) = _
  rw [expression, atom]
  simp only [hk, hc, hy, ok_bind, if_pos hw, Nat.add_assoc, hn]
  simp only [hx, Derivation.tree, Derivation.yield, List.length_cons, List.length_append, pure, Except.pure]
  congr 2
  omega

theorem loop {condition : Derivation .parens} {inner : Derivation .block} (ihc : Readable condition)
    (ihb : Readable inner) (x : Leaf .whileWord) : Readable (.loop x condition inner) := by
  intro ts hb hf
  obtain ⟨t, rest, rfl, hx, hk, hb⟩ := hb.leaf
  obtain ⟨hcb, hbb⟩ := begins_append.1 hb
  have hc : parenthesised rest = .ok (condition.tree, condition.yield.length) := ihc rest hcb trivial
  have hi : block (rest.drop condition.yield.length) = .ok (inner.tree, inner.yield.length) := ihb _ hbb trivial
  show expression 0 (t :: rest) = _
  rw [expression, atom]
  simp only [hk, hc, hi, ok_bind]
  simp only [hx, Derivation.tree, Derivation.yield, List.length_cons, List.length_append, pure, Except.pure]
  congr 2
  omega

theorem chain {tier : Nat} {head : Derivation (.expression tier)} {more : Derivation (.operands tier)}
    (ihh : Readable head) (ihm : Readable more) : Readable (.chain head more) := by
  intro ts hb hf
  obtain ⟨hhb, hmb⟩ := begins_append.1 hb
  have hfh : Follows (.expression tier) (front (ts.drop head.yield.length)) := by
    rw [front_drop hb]
    exact more.follows_operand hf
  have hh : expression tier ts = .ok (head.tree, head.yield.length) := ihh ts hhb hfh
  have hm : operators tier head.tree (ts.drop head.yield.length) = .ok (more.tree head.tree, more.yield.length) := by
    refine ihm _ hmb ?_ head.tree
    rw [List.drop_drop, ← List.length_append]
    exact hf
  show expression (tier + 1) ts = _
  rw [expression]
  simp only [hh, hm, ok_bind, Derivation.tree, Derivation.yield, List.length_append]
  rfl

theorem stop {tier : Nat} : Readable (.stop : Derivation (.operands tier)) := by
  intro ts _ hf left
  cases ts with
  | nil => rw [operators]; rfl
  | cons op rest =>
    rw [operators, if_neg]
    · rfl
    · intro hop
      exact (hf _ rfl).2 _ (Nat.le_refl _) (mem_operatorKinds.2 hop)

theorem operand {tier : Nat} {right : Derivation (.expression tier)} {more : Derivation (.operands tier)}
    (ihe : Readable right) (ihm : Readable more) (op : Operator (tier + 1)) : Readable (.operand op right more) := by
  intro ts hb hf left
  obtain ⟨t, rest, rfl, hx, hb⟩ := hb.inv
  obtain ⟨heb, hmb⟩ := begins_append.1 hb
  have hfe : Follows (.expression tier) (front (rest.drop right.yield.length)) := by
    rw [front_drop hb]
    exact more.follows_operand hf
  have he : expression tier rest = .ok (right.tree, right.yield.length) := ihe rest heb hfe
  have hm : ∀ left, operators tier left (rest.drop right.yield.length) =
      .ok (more.tree left, more.yield.length) := by
    refine ihm _ hmb ?_
    rw [List.drop_drop, ← List.length_append]
    exact hf
  rw [operators, if_pos (by rw [Placed.kind, hx, op.tier])]
  simp only [he, hm, ok_bind, hx, Derivation.tree, Derivation.yield, List.length_cons, List.length_append, pure,
    Except.pure]
  congr 2
  omega

theorem parens {e : Derivation (.expression topTier)} (ih : Readable e) (l : Leaf .lparen) (r : Leaf .rparen) :
    Readable (.parens l e r) := by
  intro ts hb _
  obtain ⟨t, rest, rfl, hx, hk, hb⟩ := hb.leaf
  obtain ⟨heb, hrb⟩ := begins_append.1 hb
  have hfe : Follows (.expression topTier) (front (rest.drop e.yield.length)) := by
    rw [startsWith_iff.1 hrb.startsWith]
    exact Follows.of_not_operator rfl (by decide)
  have he : expression topTier rest = .ok (e.tree, e.yield.length) := ih rest heb hfe
  show parenthesised (t :: rest) = _
  rw [parenthesised, if_pos hk]
  simp only [he, ok_bind, if_pos hrb.startsWith]
  simp [Derivation.tree, Derivation.yield, pure, Except.pure]

theorem block {content : Derivation .body} (ih : Readable content) (l : Leaf .lbrace) (r : Leaf .rbrace) :
    Readable (.block l content r) := by
  intro ts hb _
  obtain ⟨t, rest, rfl, hx, hk, hb⟩ := hb.leaf
  obtain ⟨hcb, hrb⟩ := begins_append.1 hb
  obtain ⟨k, hl, hlen⟩ : Reads content rest := ih rest hcb (.inr (startsWith_iff.1 hrb.startsWith))
  show Strict.block (t :: rest) = _
  rw [Strict.block, if_pos hk]
  simp only [hl, hlen, ok_bind, if_pos hrb.startsWith]
  simp [hx, Derivation.tree, Derivation.yield, pure, Except.pure]

theorem assign {value : Derivation (.expression topTier)} (ih : Readable value) (x : Leaf .ident)
    (sign : Leaf .assign) : Readable (.assign x sign value) := by
  intro ts hb hf
  obtain ⟨t, rest, rfl, hx, hk, hb⟩ := hb.leaf
  have hv : expression topTier (rest.drop 1) = .ok (value.tree, value.yield.length) := by
    refine ih _ (begins_head.1 hb).2 ?_
    rw [List.drop_drop, Nat.add_comm]
    exact hf.expression_of_statement
  show statement (t :: rest) = _
  rw [statement, if_pos (by simp [hk, hb.startsWith])]
  simp only [hv, ok_bind]
  simp [hx, Derivation.tree, Derivation.yield, pure, Except.pure]

theorem print {value : Derivation (.expression topTier)} (ih : Readable value) (x : Leaf .printWord) :
    Readable (.print x value) := by
  intro ts hb hf
  obtain ⟨t, rest, rfl, hx, hk, hb⟩ := hb.leaf
  have hv : expression topTier rest = .ok (value.tree, value.yield.length) :=
    ih _ hb hf.expression_of_statement
  show statement (t :: rest) = _
  rw [statement, if_neg (by simp [hk]), if_pos hk]
  simp only [hv, ok_bind]
  simp [hx, Derivation.tree, Derivation.yield, pure, Except.pure]

theorem expr {e : Derivation (.expression topTier)} (ih : Readable e) : Readable (.expr e) := by
  intro ts hb hf
  have he : expression topTier ts = .ok (e.tree, e.yield.length) := ih _ hb hf.expression_of_statement
  obtain ⟨x, v, hv, -⟩ := e.starts
  have hsplit := hb.split
  cases ts with
  | nil => simp [Derivation.yield, hv] at hsplit
  | cons t rest =>
    have hassign : ¬ (decide (t.kind = .ident) && startsWith .assign rest) = true := by
      intro h
      obtain ⟨hk, hs⟩ := Bool.and_eq_true_iff.1 h
      obtain ⟨w, hw⟩ := startsWith_begins hs
      obtain ⟨y, more, rfl, hy, -⟩ := hw.inv
      refine e.ne_assign ⟨t.lexeme, of_decide_eq_true hk⟩ w (more.map Placed.lexeme) hf (hsplit.symm.trans ?_)
      rw [List.map_cons, List.map_cons, hy]
    have hprint : ¬ t.kind = .printWord := by
      intro hk
      exact e.ne_print ⟨t.lexeme, hk⟩ _ hsplit.symm
    show statement (t :: rest) = _
    rw [statement, if_neg hassign, if_neg hprint]
    simp only [he, ok_bind]
    rfl

theorem noLine : Readable .noLine := by
  intro ts _ hf
  show lines ts = _
  cases ts with
  | nil => rw [lines]; rfl
  | cons t rest =>
    rcases hf with hf | hf
    · cases hf
    · rw [lines, if_pos (Option.some.inj hf)]
      rfl

theorem lastLine {s : Derivation .statement} (ih : Readable s) : Readable (.lastLine s) := by
  intro ts hb hf
  have hs : statement ts = .ok (s.tree, s.yield.length) := ih ts hb hf.statement_of_lines
  obtain ⟨t, rest, rfl, hr⟩ := begins_not_rbrace s hb
  have hn : ¬ startsWith .newline ((t :: rest).drop s.yield.length) = true := by
    rw [startsWith_iff]
    intro hn
    rcases hf with hf | hf
    · cases hf.symm.trans hn
    · cases hf.symm.trans hn
  show lines (t :: rest) = _
  rw [lines, if_neg hr]
  simp only [hs, ok_bind, if_neg hn]
  rfl

theorem line {s : Derivation .statement} {more : Derivation .lines} (ihs : Readable s) (ihm : Readable more)
    (nl : Leaf .newline) : Readable (.line s nl more) := by
  intro ts hb hf
  obtain ⟨hsb, hnb⟩ := begins_append.1 hb
  have hs : statement ts = .ok (s.tree, s.yield.length) :=
    ihs ts hsb (.inr (.inl (startsWith_iff.1 hnb.startsWith)))
  have hm : lines ((ts.drop s.yield.length).drop 1) = .ok (more.tree, more.yield.length) := by
    refine ihm _ (begins_head.1 hnb).2 ?_
    rw [List.drop_drop, List.drop_drop]
    simpa [Derivation.yield, Nat.add_comm, Nat.add_left_comm] using hf
  obtain ⟨t, rest, rfl, hr⟩ := begins_not_rbrace s hsb
  show lines (t :: rest) = _
  rw [lines, if_neg hr]
  simp only [hs, ok_bind, if_pos hnb.startsWith, hm]
  simp only [Derivation.tree, Derivation.yield, List.length_cons, List.length_append, pure, Except.pure]
  congr 2
  omega

theorem body {content : Derivation .lines} (ih : Readable content) (start : Option (Leaf .newline)) :
    Readable (.body start content) := by
  intro ts hb hf
  cases start with
  | none =>
    have hn : ¬ startsWith .newline ts = true := by
      intro hn
      obtain ⟨w, hw⟩ := startsWith_begins hn
      obtain ⟨t, rest, rfl, hw, -⟩ := hw.inv
      refine content.ne_newline w hf (rest.map Placed.lexeme) (hb.split.symm.trans ?_)
      rw [List.map_cons, hw]
    refine ⟨content.yield.length, ?_, ?_⟩
    · rw [if_neg hn]
      exact ih ts hb hf
    · rw [if_neg hn, Nat.zero_add]
      rfl
  | some nl =>
    have hn : startsWith .newline ts = true := Begins.startsWith (x := nl) hb
    refine ⟨content.yield.length, ?_, ?_⟩
    · rw [if_pos hn]
      refine ih _ (begins_head.1 hb).2 ?_
      rw [List.drop_drop]
      have hlen : (Derivation.body (some nl) content).yield.length = 1 + content.yield.length := by
        simp [Derivation.yield, Nat.add_comm]
      rw [hlen] at hf
      exact hf
    · rw [if_pos hn]
      simp [Derivation.yield, Nat.add_comm]

end Readable

theorem readable {c : Part} (d : Derivation c) : Readable d := by
  induction d with
  | name x => exact .name x
  | number x => exact .number x
  | group e ih => exact ih.group
  | choice x condition yes ihc ihy => exact ihc.choice ihy x
  | choiceElse x condition yes word no ihc ihy ihn => exact ihc.choiceElse ihy ihn x word
  | loop x condition inner ihc ihb => exact ihc.loop ihb x
  | chain head more ihh ihm => exact ihh.chain ihm
  | stop => exact .stop
  | operand op right more ihe ihm => exact ihe.operand ihm op
  | parens l e r ih => exact ih.parens l r
  | block l content r ih => exact ih.block l r
  | assign x sign value ih => exact ih.assign x sign
  | print x value ih => exact ih.print x
  | expr e ih => exact ih.expr
  | noLine => exact .noLine
  | lastLine s ih => exact ih.lastLine
  | line s nl more ihs ihm => exact ihs.line ihm nl
  | body start content ih => exact ih.body start

/-! ## Whole texts -/

theorem program_eq_ok_iff {ts : List Placed} {ss : List Node} :
    program ts = .ok ss ↔ ∃ d : Derivation .body, d.yield = ts.map Placed.lexeme ∧ d.tree = ss := by
  constructor
  · intro h
    obtain ⟨⟨ss', k⟩, hl, h⟩ := bind_eq_ok.1 h
    obtain ⟨d, hb, rfl, hk⟩ := Derives.body (lines_derives _ hl)
    refine ⟨d, ?_, ?_⟩
    · rw [hb.split, hk]
      simp only at h
      split at h
      · next hr => rw [hr, List.map_nil, List.append_nil]
      · cases h
    · simp only at h
      split at h
      · exact Except.ok.inj h
      · cases h
  · rintro ⟨d, hd, rfl⟩
    have hb : Begins ts d.yield := hd ▸ List.prefix_refl _
    have hend : ts.drop d.yield.length = [] := by
      rw [hd, List.length_map, List.drop_length]
    obtain ⟨k, hl, hk⟩ : Reads d ts := readable d ts hb (.inl (by rw [hend]; rfl))
    rw [program]
    simp only [hl, ok_bind, hk, hend]
    rfl

theorem parse_eq_ok_iff {s : String} {t : Node} :
    parse s = .ok t ↔ ∃ d : Derivation .body, Splits s.toList d.yield ∧ .root d.tree = t := by
  simp only [splits_iff_scan]
  constructor
  · intro h
    rw [parse] at h
    split at h
    · next ss hp he =>
      obtain ⟨d, hd, rfl⟩ := program_eq_ok_iff.1 hp
      exact ⟨d, ⟨he, hd.symm⟩, Except.ok.inj h⟩
    · cases h
    · cases h
  · rintro ⟨d, ⟨he, hd⟩, rfl⟩
    rw [parse]
    simp only [program_eq_ok_iff.2 ⟨d, hd.symm, rfl⟩, he]

/-- The strict parser accepts a text exactly when the text splits into terminals that are derived as a program. It
returns the tree of that derivation, and there is no other. -/
theorem parse_iff_unique_derivation :
    (∀ (s : String) (t : Node), parse s = .ok t ↔
      ∃ d : Derivation .body, Splits s.toList d.yield ∧ .root d.tree = t ∧
        ∀ d' : Derivation .body, Splits s.toList d'.yield → d' = d) ∧
    ∀ (c : Part) (d d' : Derivation c), d.yield = d'.yield ↔ d = d' := by
  refine ⟨fun s t => ?_, fun c d d' => ⟨d.unambiguous d', fun h => h ▸ rfl⟩⟩
  rw [parse_eq_ok_iff]
  constructor
  · rintro ⟨d, hs, ht⟩
    exact ⟨d, hs, ht, fun d' hs' => d'.unambiguous d (hs'.unique hs)⟩
  · rintro ⟨d, hs, ht, -⟩
    exact ⟨d, hs, ht⟩

end LineLang.Strict
