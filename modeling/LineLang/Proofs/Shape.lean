import LineLang.Proofs.Grammar
import LineLang.Proofs.Pruning
import LineLang.Proofs.Terminals
import LineLang.Tree.Tolerant

/-!
# The shape of parsed trees

A tree from a file may hold anything anywhere. A tree from a parser is made of terminals, has statements where
statements belong and expressions where expressions belong, and lacks parts in certain places only.

* `Lexeme.mark k` : the one terminal of a kind with a fixed spelling;
* `Slot` : a place that a parser may leave empty;
* `Node.gaps` : the empty places of a tree, at every depth;
* `Formed gap r n` : `n` is a tree in the role `r` whose empty places satisfy `gap`;
* `Formed.restrict` : a tree is formed with the gaps that it has;
* `Derivation.formed` : the tree of a derivation has no gaps;
* `Tolerant.formed_programOf` : a tolerant tree is formed.
-/

namespace LineLang

open Strict Grammar

/-- How a terminal is spelled whose kind has one spelling, and a line end that is one line feed. -/
def Kind.spelling : Kind → String
  | .lparen => "("
  | .rparen => ")"
  | .lbrace => "\x7b"
  | .rbrace => "\x7d"
  | .plus => "+"
  | .minus => "-"
  | .star => "*"
  | .slash => "/"
  | .percent => "%"
  | .assign => "="
  | .equal => "=="
  | .notEqual => "!="
  | .both => "&&"
  | .either => "||"
  | .less => "<"
  | .greater => ">"
  | .atMost => "<="
  | .atLeast => ">="
  | .newline => "\n"
  | .printWord => "print"
  | .ifWord => "if"
  | .elseWord => "else"
  | .whileWord => "while"
  | .ident | .num | .comma | .illegal | .eof => ""

def Lexeme.mark (k : Kind) : Lexeme := ⟨k, k.spelling⟩

/-- A leaf of a derivation, by its text. -/
def Grammar.Leaf.spelt (k : Kind) (text : String) : Leaf k := ⟨⟨k, text⟩, rfl⟩

def Grammar.Leaf.mark (k : Kind) : Leaf k := .spelt k k.spelling

@[simp] theorem Grammar.Leaf.val_mark (k : Kind) : (Leaf.mark k).1 = .mark k := rfl

theorem Strict.IsTerminal.eq_mark {t : Lexeme} (ht : IsTerminal t)
    (hk : t.kind ∉ [Kind.ident, .num, .newline]) : t = .mark t.kind := by
  obtain ⟨k, w⟩ := t
  have key : w.toList = k.spelling.toList → (⟨k, w⟩ : Lexeme) = .mark k := fun h => by
    rw [String.toList_inj.1 h, Lexeme.mark]
  cases k with
  | ident => exact absurd (by simp) hk
  | num => exact absurd (by simp) hk
  | newline => exact absurd (by simp) hk
  | comma => exact ht.elim
  | illegal => exact ht.elim
  | eof => exact ht.elim
  | _ => exact key ht

/-! ## Gaps -/

inductive Slot where
  /-- The expression of a statement; a blank line leaves it empty. -/
  | statement
  /-- The value of an assignment or of a print statement. -/
  | value
  | condition
  | operand
  deriving DecidableEq, Repr

namespace Node

/-- The place `s`, if `n` leaves it empty. -/
def hole (s : Slot) (n : Node) : List Slot := if n.isMissing then [s] else []

mutual

def gaps : Node → List Slot
  | .missing => []
  | .root statements => gapsList statements
  | .assign _ name value => gaps name ++ (hole .value value ++ gaps value)
  | .print _ value => hole .value value ++ gaps value
  | .expr _ expression => hole .statement expression ++ gaps expression
  | .block _ statements => gapsList statements
  | .cond _ condition yes no => hole .condition condition ++ gaps condition ++ (gaps yes ++ gaps no)
  | .loop _ condition body => hole .condition condition ++ gaps condition ++ gaps body
  | .ident .. => []
  | .int .. => []
  | .binary _ left _ right => hole .operand left ++ gaps left ++ (hole .operand right ++ gaps right)
  | .unary _ _ right => hole .operand right ++ gaps right

def gapsList : List Node → List Slot
  | [] => []
  | s :: ss => gaps s ++ gapsList ss

end

theorem mem_gapsList {slot : Slot} {ss : List Node} : slot ∈ gapsList ss ↔ ∃ s ∈ ss, slot ∈ gaps s := by
  induction ss with
  | nil => simp [gapsList]
  | cons s ss ih => simp [gapsList, ih]

end Node

/-! ## Formed trees -/

/-- What a tree stands for in another one. -/
inductive Role where
  | expression
  /-- An expression, or nothing. -/
  | place (s : Slot)
  | block
  | statement

/-- The tree `n` can stand in the role `r`, and its empty places satisfy `gap`. -/
inductive Formed (gap : Slot → Prop) : Role → Node → Prop where
  | empty {s : Slot} (h : gap s) : Formed gap (.place s) .missing
  | placed {s : Slot} {e : Node} (h : Formed gap .expression e) : Formed gap (.place s) e
  | name {x : Lexeme} (hx : IsTerminal x) (hk : x.kind = .ident) : Formed gap .expression (.ofName x)
  | number {x : Lexeme} (hx : IsTerminal x) (hk : x.kind = .num) : Formed gap .expression (Tolerant.integer x)
  | binary {k : Kind} {left right : Node} (hk : (tier? k).isSome = true) (hl : Formed gap (.place .operand) left)
    (hr : Formed gap (.place .operand) right) :
    Formed gap .expression (.binary (Lexeme.mark k).token left (.str (Lexeme.mark k).text) right)
  | choice {condition yes : Node} (hc : Formed gap (.place .condition) condition) (hy : Formed gap .block yes) :
    Formed gap .expression (.cond (Lexeme.mark .ifWord).token condition yes .missing)
  | choiceElse {condition yes no : Node} (hc : Formed gap (.place .condition) condition)
    (hy : Formed gap .block yes) (hn : Formed gap .block no) :
    Formed gap .expression (.cond (Lexeme.mark .ifWord).token condition yes no)
  | loop {condition body : Node} (hc : Formed gap (.place .condition) condition) (hb : Formed gap .block body) :
    Formed gap .expression (.loop (Lexeme.mark .whileWord).token condition body)
  | block {ss : List Node} (h : ∀ s ∈ ss, Formed gap .statement s) :
    Formed gap .block (.block (Lexeme.mark .lbrace).token ss)
  | assign {x : Lexeme} {value : Node} (hx : IsTerminal x) (hk : x.kind = .ident)
    (hv : Formed gap (.place .value) value) : Formed gap .statement (.assign x.token (.ofName x) value)
  | print {value : Node} (hv : Formed gap (.place .value) value) :
    Formed gap .statement (.print (Lexeme.mark .printWord).token value)
  | expr (token : Token) {e : Node} (he : Formed gap (.place .statement) e) :
    Formed gap .statement (.expr token e)

namespace Formed

variable {gap : Slot → Prop} {n : Node}

theorem ne_missing (h : Formed gap .expression n) : n ≠ .missing := by
  cases h <;> simp [Node.ofName, Tolerant.integer]

theorem isMissing_block (h : Formed gap .block n) : n.isMissing = false := by
  cases h
  rfl

/-- A place that has no gap is filled. -/
theorem expression_of_place {s : Slot} (h : Formed gap (.place s) n) (hs : ¬ gap s) : Formed gap .expression n := by
  cases h with
  | empty h => exact absurd h hs
  | placed h => exact h

/-- The gaps of a tree are those it has. -/
theorem restrict {r : Role} (h : Formed gap r n) {gap' : Slot → Prop} (hg : ∀ s ∈ n.gaps, gap' s)
    (hr : ∀ s, r = .place s → n = .missing → gap' s) : Formed gap' r n := by
  have holes : ∀ {s : Slot} {e : Node}, (∀ s' ∈ e.hole s, gap' s') → ∀ s', Role.place s = .place s' →
      e = .missing → gap' s' := by
    rintro s e he s' hs rfl
    obtain rfl := Role.place.inj hs
    exact he s (by simp [Node.hole, Node.isMissing])
  have other : ∀ {r : Role}, (∀ s, r ≠ .place s) → ∀ {e : Node} (s : Slot), r = .place s → e = .missing → gap' s :=
    fun hr _ s hs => absurd hs (hr s)
  induction h with
  | empty _ => exact .empty (hr _ rfl rfl)
  | placed h ih => exact .placed (ih hg (other (by simp)))
  | name hx hk => exact .name hx hk
  | number hx hk => exact .number hx hk
  | binary hk _ _ ihl ihr =>
    simp only [Node.gaps, List.forall_mem_append] at hg
    exact .binary hk (ihl hg.1.2 (holes hg.1.1)) (ihr hg.2.2 (holes hg.2.1))
  | choice _ _ ihc ihy =>
    simp only [Node.gaps, List.forall_mem_append] at hg
    exact .choice (ihc hg.1.2 (holes hg.1.1)) (ihy hg.2.1 (other (by simp)))
  | choiceElse _ _ _ ihc ihy ihn =>
    simp only [Node.gaps, List.forall_mem_append] at hg
    exact .choiceElse (ihc hg.1.2 (holes hg.1.1)) (ihy hg.2.1 (other (by simp))) (ihn hg.2.2 (other (by simp)))
  | loop _ _ ihc ihb =>
    simp only [Node.gaps, List.forall_mem_append] at hg
    exact .loop (ihc hg.1.2 (holes hg.1.1)) (ihb hg.2 (other (by simp)))
  | block _ ih =>
    refine .block fun s hs => ih s hs (fun slot hslot => hg slot ?_) (other (by simp))
    exact Node.mem_gapsList.2 ⟨s, hs, hslot⟩
  | assign hx hk _ ih =>
    simp only [Node.gaps, List.forall_mem_append] at hg
    exact .assign hx hk (ih hg.2.2 (holes hg.2.1))
  | print _ ih =>
    simp only [Node.gaps, List.forall_mem_append] at hg
    exact .print (ih hg.2 (holes hg.1))
  | expr token _ ih =>
    simp only [Node.gaps, List.forall_mem_append] at hg
    exact .expr token (ih hg.2 (holes hg.1))

theorem restrict_statement (h : Formed gap .statement n) {gap' : Slot → Prop} (hg : ∀ s ∈ n.gaps, gap' s) :
    Formed gap' .statement n :=
  h.restrict hg (by simp)

theorem hole_satisfies {s : Slot} (h : Formed gap (.place s) n) : ∀ s' ∈ n.hole s, gap s' := by
  intro s' hs'
  cases h with
  | empty h =>
    obtain rfl : s' = s := by simpa [Node.hole, Node.isMissing] using hs'
    exact h
  | placed h =>
    have hn : n.isMissing = false := by cases h <;> rfl
    simp [Node.hole, hn] at hs'

/-- The empty places of a formed tree satisfy the condition on gaps. -/
theorem gaps_satisfy {r : Role} (h : Formed gap r n) : ∀ s ∈ n.gaps, gap s := by
  induction h with
  | empty _ => simp [Node.gaps]
  | placed _ ih => exact ih
  | name _ _ => simp [Node.ofName, Node.gaps]
  | number _ _ => simp [Tolerant.integer, Node.gaps]
  | binary _ hl hr ihl ihr =>
    simp only [Node.gaps, List.forall_mem_append]
    exact ⟨⟨hl.hole_satisfies, ihl⟩, hr.hole_satisfies, ihr⟩
  | choice hc _ ihc ihy =>
    simp only [Node.gaps, List.append_nil, List.forall_mem_append]
    exact ⟨⟨hc.hole_satisfies, ihc⟩, ihy⟩
  | choiceElse hc _ _ ihc ihy ihn =>
    simp only [Node.gaps, List.forall_mem_append]
    exact ⟨⟨hc.hole_satisfies, ihc⟩, ihy, ihn⟩
  | loop hc _ ihc ihb =>
    simp only [Node.gaps, List.forall_mem_append]
    exact ⟨⟨hc.hole_satisfies, ihc⟩, ihb⟩
  | block _ ih =>
    intro slot hslot
    obtain ⟨s, hs, hslot⟩ := Node.mem_gapsList.1 hslot
    exact ih s hs slot hslot
  | assign _ _ hv ih =>
    simp only [Node.ofName, Node.gaps, List.nil_append, List.forall_mem_append]
    exact ⟨hv.hole_satisfies, ih⟩
  | print hv ih =>
    simp only [Node.gaps, List.forall_mem_append]
    exact ⟨hv.hole_satisfies, ih⟩
  | expr _ he ih =>
    simp only [Node.gaps, List.forall_mem_append]
    exact ⟨he.hole_satisfies, ih⟩

theorem isBlank_eq_false (h : Formed gap .statement n) (hg : ¬ gap .statement) : n.isBlank = false := by
  cases h with
  | assign _ _ _ => rfl
  | print _ => rfl
  | expr _ he => exact Node.isBlank_expr (he.expression_of_place hg).ne_missing

theorem pruned_eq {r : Role} (h : Formed gap r n) (hg : ¬ gap .statement) : n.pruned = n := by
  induction h with
  | empty _ => rfl
  | placed _ ih => exact ih
  | name _ _ => rfl
  | number _ _ => rfl
  | binary _ _ _ ihl ihr => rw [Node.pruned, ihl, ihr]
  | choice _ _ ihc ihy => rw [Node.pruned, ihc, ihy, Node.pruned]
  | choiceElse _ _ _ ihc ihy ihn => rw [Node.pruned, ihc, ihy, ihn]
  | loop _ _ ihc ihb => rw [Node.pruned, ihc, ihb]
  | block hs ih => rw [Node.pruned, Node.prunedList_eq fun s h => ⟨(hs s h).isBlank_eq_false hg, ih s h⟩]
  | assign _ _ _ ih => rw [Node.pruned, ih, Node.ofName, Node.pruned]
  | print _ ih => rw [Node.pruned, ih]
  | expr _ _ ih => rw [Node.pruned, ih]

end Formed

/-! ## Trees of derivations -/

/-- The role in which the tree of a part stands. -/
def FormedAs : {c : Part} → c.Tree → Prop
  | .expression _, e => Formed (fun _ => False) .expression e
  | .operands _, f => ∀ left, Formed (fun _ => False) .expression left → Formed (fun _ => False) .expression (f left)
  | .parens, e => Formed (fun _ => False) .expression e
  | .block, b => Formed (fun _ => False) .block b
  | .statement, s => Formed (fun _ => False) .statement s
  | .lines, ss => ∀ s ∈ ss, Formed (fun _ => False) .statement s
  | .body, ss => ∀ s ∈ ss, Formed (fun _ => False) .statement s

theorem Grammar.Leaf.eq_mark {k : Kind} (x : Leaf k) (hx : IsTerminal x.1) (hk : k ∉ [Kind.ident, .num, .newline]) :
    x.1 = .mark k := by
  have hx' := hx.eq_mark (by rw [x.2]; exact hk)
  rw [x.2] at hx'
  exact hx'

theorem Grammar.Operator.eq_mark {tier : Nat} (op : Operator tier) (h : IsTerminal op.1) :
    op.1 = .mark op.1.kind := by
  refine h.eq_mark fun hk => ?_
  have ht := op.tier
  simp only [List.mem_cons, List.not_mem_nil, or_false] at hk
  rcases hk with hk | hk | hk <;> rw [hk] at ht <;> cases ht

/-- The tree of a derivation lacks nothing. -/
theorem Grammar.Derivation.formed {c : Part} (d : Derivation c) (hd : ∀ t ∈ d.yield, IsTerminal t) :
    FormedAs d.tree := by
  induction d with
  | name x => exact .name (hd _ (by simp [yield])) x.2
  | number x => exact .number (hd _ (by simp [yield])) x.2
  | group e ih => exact ih hd
  | choice x c y ihc ihy =>
    simp only [yield, List.forall_mem_cons, List.forall_mem_append] at hd
    simp only [tree, x.eq_mark hd.1 (by decide)]
    exact .choice (.placed (ihc hd.2.1)) (ihy hd.2.2)
  | choiceElse x c y w n ihc ihy ihn =>
    simp only [yield, List.forall_mem_cons, List.forall_mem_append] at hd
    simp only [tree, x.eq_mark hd.1 (by decide)]
    exact .choiceElse (.placed (ihc hd.2.1)) (ihy hd.2.2.1) (ihn hd.2.2.2.2)
  | loop x c b ihc ihb =>
    simp only [yield, List.forall_mem_cons, List.forall_mem_append] at hd
    simp only [tree, x.eq_mark hd.1 (by decide)]
    exact .loop (.placed (ihc hd.2.1)) (ihb hd.2.2)
  | chain head more ihh ihm =>
    simp only [yield, List.forall_mem_append] at hd
    exact ihm hd.2 _ (ihh hd.1)
  | stop => exact fun left h => h
  | operand op right more ihr ihm =>
    simp only [yield, List.forall_mem_cons, List.forall_mem_append] at hd
    intro left hl
    refine ihm hd.2.2 _ ?_
    have hop : (tier? op.1.kind).isSome = true := by rw [op.tier]; rfl
    rw [op.eq_mark hd.1]
    exact .binary hop (.placed hl) (.placed (ihr hd.2.1))
  | parens l e r ih =>
    simp only [yield, List.forall_mem_cons, List.forall_mem_append] at hd
    exact ih hd.2.1
  | block l content r ih =>
    simp only [yield, List.forall_mem_cons, List.forall_mem_append] at hd
    simp only [tree, l.eq_mark hd.1 (by decide)]
    exact .block (ih hd.2.1)
  | assign x sign value ih =>
    simp only [yield, List.forall_mem_cons] at hd
    exact .assign hd.1 x.2 (.placed (ih hd.2.2))
  | print x value ih =>
    simp only [yield, List.forall_mem_cons] at hd
    simp only [tree, x.eq_mark hd.1 (by decide)]
    exact .print (.placed (ih hd.2))
  | expr e ih => exact .expr _ (.placed (ih hd))
  | noLine => exact fun s hs => absurd hs List.not_mem_nil
  | lastLine s ih => exact List.forall_mem_singleton.2 (ih hd)
  | line s nl more ihs ihm =>
    simp only [yield, List.forall_mem_cons, List.forall_mem_append] at hd
    exact List.forall_mem_cons.2 ⟨ihs hd.1, ihm hd.2.2⟩
  | body start content ih =>
    simp only [yield, List.forall_mem_append] at hd
    exact ih hd.2

/-! ## Trees of the tolerant parser -/

namespace Tolerant

/-- All lexemes are terminals, apart from commas and characters outside the language. -/
def Spelt (ts : List Lexeme) : Prop := ∀ t ∈ ts, t.kind ∉ [Kind.comma, .illegal] → IsTerminal t

theorem Spelt.drop {ts : List Lexeme} (h : Spelt ts) (k : Nat) : Spelt (ts.drop k) :=
  fun t ht => h t (List.mem_of_mem_drop ht)

theorem Spelt.tail {t : Lexeme} {ts : List Lexeme} (h : Spelt (t :: ts)) : Spelt ts := h.drop 1

theorem Spelt.head {t : Lexeme} {ts : List Lexeme} (h : Spelt (t :: ts)) {k : Kind} (ht : t.kind = k)
    (hk : k ∉ [Kind.comma, .illegal]) : IsTerminal t :=
  h t (List.mem_cons_self ..) (by rw [ht]; exact hk)

theorem Spelt.head_eq {t : Lexeme} {ts : List Lexeme} (h : Spelt (t :: ts)) {k : Kind} (ht : t.kind = k)
    (hk : k ∉ [Kind.comma, .illegal, .ident, .num, .newline]) : t = .mark k := by
  subst ht
  refine (h.head rfl fun hm => hk ?_).eq_mark fun hm => hk ?_
  · exact List.mem_append_left [Kind.ident, .num, .newline] hm
  · exact List.mem_append_right [Kind.comma, .illegal] hm

theorem isTerminal_single (c : Char) : ∀ k ∈ Kind.single? c, k = .comma ∨ IsTerminal ⟨k, String.singleton c⟩ := by
  fun_cases Kind.single? c
  case case5 => exact fun k hk => .inl (Option.some.inj hk).symm
  case case11 hc =>
    rintro k ⟨⟩
    rw [hc]
    exact .inr ⟨[], rfl, by simp⟩
  case case12 => exact fun k hk => absurd hk (by simp)
  all_goals
    rename_i hc
    rintro k ⟨⟩
    rw [hc]
    exact .inr rfl

theorem isTerminal_pair (c : Char) : ∀ p ∈ Kind.pair? c, IsTerminal ⟨p.2.1, String.ofList [c, p.1]⟩ ∧
    (p.2.2 = .illegal ∨ IsTerminal ⟨p.2.2, String.singleton c⟩) := by
  fun_cases Kind.pair? c
  case case7 => exact fun k hk => absurd hk (by simp)
  case case1 hc | case2 hc | case3 hc =>
    rintro p ⟨⟩
    rw [hc]
    exact ⟨rfl, .inr rfl⟩
  all_goals
    rename_i hc
    rintro p ⟨⟩
    rw [hc]
    exact ⟨rfl, .inl rfl⟩

theorem spelt_scanFrom (c : Char) (cs : List Char) :
    (LineLang.scanFrom c cs).1.kind ∉ [Kind.comma, .illegal] → IsTerminal (LineLang.scanFrom c cs).1 := by
  intro hk
  unfold LineLang.scanFrom at hk ⊢
  split
  · next hc =>
    refine isTerminal_word (by simp) fun x hx => ?_
    rw [String.toList_ofList] at hx
    rcases List.mem_cons.1 hx with rfl | hx
    · exact hc
    · exact List.mem_takeWhile_imp hx
  split
  · next hc =>
    refine ⟨by simp, fun x hx => ?_⟩
    rw [String.toList_ofList] at hx
    rcases List.mem_cons.1 hx with rfl | hx
    · exact hc
    · exact List.mem_takeWhile_imp hx
  · next hl hd =>
    rw [if_neg hl, if_neg hd] at hk
    have alone : ∀ {second : Char} {two one : Kind}, Kind.pair? c = some (second, two, one) →
        one ∉ [Kind.comma, .illegal] → IsTerminal ⟨one, String.singleton c⟩ := fun hp hne =>
      (isTerminal_pair c _ hp).2.resolve_left fun h => hne (List.mem_cons.2 (.inr (List.mem_singleton.2 h)))
    split at hk
    · next hs => exact (isTerminal_single c _ hs).resolve_left fun h => hk (List.mem_cons.2 (.inl h))
    · next hp =>
      split at hk
      · next hd =>
        rw [if_pos hd, hd]
        exact (isTerminal_pair c _ hp).1
      · next hd =>
        rw [if_neg hd]
        exact alone hp hk
    · next hp => exact alone hp hk
    · exact absurd (by simp) hk

theorem spelt_lexemes (cs : List Char) : Spelt (lexemes cs) := by
  fun_induction lexemes cs with
  | case1 cs h => exact fun t ht => absurd ht List.not_mem_nil
  | case2 cs h => exact fun t ht => absurd ht List.not_mem_nil
  | case3 cs c rest h hc found ih =>
    exact List.forall_mem_cons.2 ⟨spelt_scanFrom c rest, ih⟩

/-- An expression, or nothing. -/
def Made (e : Node) : Prop := e = .missing ∨ Formed (fun _ => True) .expression e

theorem Made.place {e : Node} (h : Made e) (s : Slot) : Formed (fun _ => True) (.place s) e := by
  rcases h with rfl | h
  · exact .empty trivial
  · exact .placed h

theorem Made.binary {op : Lexeme} {ts : List Lexeme} {q : Int} {left right : Node} (hl : Made left)
    (h : Spelt (op :: ts)) (hq : op.kind.strength? = some q) (hr : Made right) :
    Made (.binary op.token left (.str op.text) right) := by
  have hop : op = .mark op.kind := by
    refine h.head_eq rfl fun hk => ?_
    simp only [List.mem_cons, List.not_mem_nil, or_false] at hk
    rcases hk with hk | hk | hk | hk | hk <;> rw [hk] at hq <;> cases hq
  have hk : (tier? op.kind).isSome = true := by
    rw [strength?_eq] at hq
    obtain ⟨n, hn, -⟩ := Option.map_eq_some_iff.1 hq
    rw [hn]
    rfl
  rw [hop]
  exact .inr (.binary hk (hl.place _) (hr.place _))

mutual

theorem made_expression (p : Int) (ts : List Lexeme) (h : Spelt ts) : Made (expression p ts).1 := by
  match ts with
  | [] =>
    rw [expression]
    exact .inl rfl
  | t :: rest =>
    rw [expression]
    split
    · exact .inl rfl
    · next left k ho =>
      exact made_operators p left _ (made_operand t rest h ho) (h.drop k)
termination_by 5 * ts.length + 1

theorem made_operand (t : Lexeme) (rest : List Lexeme) (h : Spelt (t :: rest)) {e : Node} {k : Nat}
    (ho : operand t rest = some (e, k)) : Made e := by
  rw [operand] at ho
  split at ho
  · next ht =>
    obtain ⟨rfl, -⟩ := Prod.mk.inj (Option.some.inj ho)
    exact .inr (.name (h.head ht (by decide)) ht)
  · next ht =>
    obtain ⟨rfl, -⟩ := Prod.mk.inj (Option.some.inj ho)
    exact .inr (.number (h.head ht (by decide)) ht)
  · have hg := made_group rest h.tail
    rw [Option.some.inj ho] at hg
    exact hg
  · next ht =>
    have hc := made_choice t rest ht h
    rw [Option.some.inj ho] at hc
    exact hc
  · next ht =>
    have hl := made_loop t rest ht h
    rw [Option.some.inj ho] at hl
    exact hl
  · cases ho
termination_by 5 * rest.length + 4

theorem made_operators (p : Int) (left : Node) (ts : List Lexeme) (hl : Made left) (h : Spelt ts) :
    Made (operators p left ts).1 := by
  unfold operators
  split
  · next a op rest =>
    split
    · next q hq =>
      split
      · have hr := made_expression q rest h.tail.tail
        exact made_operators p _ _ (hl.binary h.tail hq hr) (h.tail.tail.drop _)
      · exact hl
    · exact hl
  · exact hl
termination_by 5 * ts.length + 0

theorem made_group (rest : List Lexeme) (h : Spelt rest) : Made (group rest).1 := by
  rw [group]
  have he := made_expression Kind.lowest rest h
  split
  next e k hek =>
  rw [hek] at he
  split
  · exact he
  · exact .inl rfl
termination_by 5 * rest.length + 2

theorem made_clause (rest : List Lexeme) (h : Spelt rest) {c b : Node} {k : Nat}
    (hc : clause rest = (some (c, b), k)) : Made c ∧ Formed (fun _ => True) .block b := by
  match rest with
  | [] =>
    rw [clause] at hc
    cases (Prod.mk.inj hc).1
  | t :: rest =>
    rw [clause] at hc
    split at hc
    · split at hc
      next e j he =>
      have hm := made_expression Kind.lowest rest h.tail
      rw [he] at hm
      split at hc
      · split at hc
        · next b' i hb =>
          obtain ⟨hcb, -⟩ := Prod.mk.inj hc
          obtain ⟨rfl, rfl⟩ := Prod.mk.inj (Option.some.inj hcb)
          exact ⟨hm, formed_braces _ (h.tail.drop _) hb⟩
        · cases (Prod.mk.inj hc).1
      · cases (Prod.mk.inj hc).1
    · cases (Prod.mk.inj hc).1
termination_by 5 * rest.length + 2

theorem formed_braces (ts : List Lexeme) (h : Spelt ts) {b : Node} {k : Nat} (hb : braces ts = some (b, k)) :
    Formed (fun _ => True) .block b := by
  unfold braces at hb
  split at hb
  · next a t rest =>
    split at hb
    · next ht =>
      split at hb
      next ss j hs =>
      obtain ⟨rfl, -⟩ := Prod.mk.inj (Option.some.inj hb)
      have hf := formed_statements rest h.tail.tail
      rw [hs] at hf
      rw [h.tail.head_eq ht (by decide)]
      exact .block hf
    · cases hb
  · cases hb
termination_by 5 * ts.length + 2

theorem made_choice (t : Lexeme) (rest : List Lexeme) (ht : t.kind = .ifWord) (h : Spelt (t :: rest)) :
    Made (choice t rest).1 := by
  rw [choice]
  split
  · exact .inl rfl
  · next c y k hc =>
    obtain ⟨hcm, hy⟩ := made_clause rest h.tail hc
    rw [h.head_eq ht (by decide)]
    split
    · split
      · next n j hn => exact .inr (.choiceElse (hcm.place _) hy (formed_braces _ (h.tail.drop k) hn))
      · exact .inl rfl
    · exact .inr (.choice (hcm.place _) hy)
termination_by 5 * rest.length + 3

theorem made_loop (t : Lexeme) (rest : List Lexeme) (ht : t.kind = .whileWord) (h : Spelt (t :: rest)) :
    Made (loop t rest).1 := by
  rw [loop]
  split
  · exact .inl rfl
  · next c b k hc =>
    obtain ⟨hcm, hb⟩ := made_clause rest h.tail hc
    rw [h.head_eq ht (by decide)]
    exact .inr (.loop (hcm.place _) hb)
termination_by 5 * rest.length + 3

theorem formed_statement (ts : List Lexeme) (h : Spelt ts) : Formed (fun _ => True) .statement (statement ts).1 := by
  match ts with
  | [] =>
    rw [statement]
    exact .expr _ (.empty trivial)
  | t :: rest =>
    rw [statement]
    split
    · next ht =>
      have hk := of_decide_eq_true (Bool.and_eq_true_iff.1 ht).1
      have hv := made_expression Kind.lowest rest.tail
        (fun x hx => h x (List.mem_cons_of_mem _ (List.mem_of_mem_tail hx)))
      exact .assign (h.head hk (by decide)) hk (hv.place _)
    split
    · next ht =>
      have hv := made_expression Kind.lowest rest h.tail
      have hp := h.head_eq ht (by decide)
      rw [hp]
      exact .print (hv.place _)
    · exact .expr _ ((made_expression Kind.lowest (t :: rest) h).place _)
termination_by 5 * ts.length + 2

theorem formed_statements (ts : List Lexeme) (h : Spelt ts) :
    ∀ s ∈ (statements ts).1, Formed (fun _ => True) .statement s := by
  match ts with
  | [] =>
    rw [statements]
    exact fun s hs => absurd hs List.not_mem_nil
  | t :: rest =>
    rw [statements]
    split
    · exact fun s hs => absurd hs List.not_mem_nil
    · exact List.forall_mem_cons.2 ⟨formed_statement (t :: rest) h, formed_statements _ (h.tail.drop _)⟩
termination_by 5 * ts.length + 3

end

theorem formed_programOf (ts : List Lexeme) (h : Spelt ts) :
    ∀ s ∈ programOf ts, Formed (fun _ => True) .statement s := by
  match ts with
  | [] =>
    rw [programOf]
    exact fun s hs => absurd hs List.not_mem_nil
  | t :: rest =>
    rw [programOf]
    exact List.forall_mem_cons.2 ⟨formed_statement (t :: rest) h, formed_programOf _ (h.tail.drop _)⟩
termination_by ts.length

end Tolerant

end LineLang
