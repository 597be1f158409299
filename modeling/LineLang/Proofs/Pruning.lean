import LineLang.Tree.Render

/-!
# Trees up to blank statements

A blank line leaves an expression statement without an expression in a tolerant tree, and a strict tree has none
of these. The two kinds of tree also disagree on the token of a statement that begins with a parenthesis. Neither
difference shows in the text of a tree.

* `Node.isBlank` : an expression statement whose expression is missing;
* `Node.solid` : the statements of a list that are not blank;
* `Node.pruned` : a tree without its blank statements, at every depth;
* `Node.unlabelled` : a tree that has forgotten the tokens of its expression statements;
* `Node.core` : both at once; trees with the same core are compared by the theorems on parsers;
* `render_pruned`, `render_unlabelled` : the text of a tree stays the same.
-/

namespace LineLang.Node

def isBlank : Node → Bool
  | .expr _ .missing => true
  | _ => false

mutual

def pruned : Node → Node
  | .missing => .missing
  | .root statements => .root (prunedList statements)
  | .assign token name value => .assign token (pruned name) (pruned value)
  | .print token value => .print token (pruned value)
  | .expr token expression => .expr token (pruned expression)
  | .block token statements => .block token (prunedList statements)
  | .cond token condition yes no => .cond token (pruned condition) (pruned yes) (pruned no)
  | .loop token condition body => .loop token (pruned condition) (pruned body)
  | .ident token name => .ident token name
  | .int token value => .int token value
  | .binary token left operator right => .binary token (pruned left) operator (pruned right)
  | .unary token operator right => .unary token operator (pruned right)

/-- The statements that are not blank, each without the blank ones inside it. -/
def prunedList : List Node → List Node
  | [] => []
  | s :: ss => if s.isBlank then prunedList ss else pruned s :: prunedList ss

end

mutual

def unlabelled : Node → Node
  | .missing => .missing
  | .root statements => .root (unlabelledList statements)
  | .assign token name value => .assign token (unlabelled name) (unlabelled value)
  | .print token value => .print token (unlabelled value)
  | .expr _ expression => .expr Lexeme.eof.token (unlabelled expression)
  | .block token statements => .block token (unlabelledList statements)
  | .cond token condition yes no => .cond token (unlabelled condition) (unlabelled yes) (unlabelled no)
  | .loop token condition body => .loop token (unlabelled condition) (unlabelled body)
  | .ident token name => .ident token name
  | .int token value => .int token value
  | .binary token left operator right => .binary token (unlabelled left) operator (unlabelled right)
  | .unary token operator right => .unary token operator (unlabelled right)

def unlabelledList : List Node → List Node
  | [] => []
  | s :: ss => unlabelled s :: unlabelledList ss

end

/-- What is left of a tree without blank statements and tokens of expression statements. -/
def core (n : Node) : Node := n.pruned.unlabelled

def coreList (ss : List Node) : List Node := unlabelledList (prunedList ss)

/-! ## Blank statements -/

theorem exists_of_isBlank {s : Node} (h : s.isBlank = true) : ∃ t, s = .expr t .missing := by
  cases s with
  | expr t e => cases e <;> first | exact ⟨t, rfl⟩ | exact Bool.noConfusion h
  | _ => exact Bool.noConfusion h

def solid (ss : List Node) : List Node := ss.filter fun s => !s.isBlank

@[simp] theorem solid_nil : solid [] = [] := rfl

theorem solid_cons (s : Node) (ss : List Node) :
    solid (s :: ss) = if s.isBlank then solid ss else s :: solid ss := by
  rw [solid, List.filter_cons, solid]
  cases s.isBlank <;> rfl

theorem prunedList_eq_map : ∀ ss : List Node, prunedList ss = (solid ss).map pruned
  | [] => rfl
  | s :: ss => by
    rw [prunedList, prunedList_eq_map ss, solid_cons]
    split <;> rfl

theorem prunedList_append {ss xs ys : List Node} (h : solid ss = solid xs ++ solid ys) :
    prunedList ss = prunedList xs ++ prunedList ys := by
  rw [prunedList_eq_map, h, List.map_append, prunedList_eq_map, prunedList_eq_map]

/-! ## Cores -/

@[simp] theorem core_missing : core .missing = .missing := rfl

@[simp] theorem core_root (ss : List Node) : (Node.root ss).core = .root (coreList ss) := rfl

@[simp] theorem core_assign (t : Token) (n v : Node) : (Node.assign t n v).core = .assign t n.core v.core := rfl

@[simp] theorem core_print (t : Token) (v : Node) : (Node.print t v).core = .print t v.core := rfl

@[simp] theorem core_expr (t : Token) (e : Node) : (Node.expr t e).core = .expr Lexeme.eof.token e.core := rfl

@[simp] theorem core_block (t : Token) (ss : List Node) : (Node.block t ss).core = .block t (coreList ss) := rfl

@[simp] theorem core_cond (t : Token) (c y n : Node) :
    (Node.cond t c y n).core = .cond t c.core y.core n.core := rfl

@[simp] theorem core_loop (t : Token) (c b : Node) : (Node.loop t c b).core = .loop t c.core b.core := rfl

@[simp] theorem core_ident (t : Token) (name : Json) : (Node.ident t name).core = .ident t name := rfl

@[simp] theorem core_int (t : Token) (value : Int) : (Node.int t value).core = .int t value := rfl

@[simp] theorem core_binary (t : Token) (l : Node) (o : Json) (r : Node) :
    (Node.binary t l o r).core = .binary t l.core o r.core := rfl

@[simp] theorem coreList_nil : coreList [] = [] := rfl

theorem coreList_cons_blank {s : Node} (h : s.isBlank = true) (ss : List Node) :
    coreList (s :: ss) = coreList ss := by
  rw [coreList, prunedList, if_pos h, coreList]

theorem coreList_cons {s : Node} (h : s.isBlank = false) (ss : List Node) :
    coreList (s :: ss) = s.core :: coreList ss := by
  rw [coreList, prunedList, if_neg (by rw [h]; exact Bool.false_ne_true), unlabelledList, core, coreList]

@[simp] theorem isBlank_expr_missing (t : Token) : (Node.expr t .missing).isBlank = true := rfl

@[simp] theorem isBlank_assign (t : Token) (n v : Node) : (Node.assign t n v).isBlank = false := rfl

@[simp] theorem isBlank_print (t : Token) (v : Node) : (Node.print t v).isBlank = false := rfl

theorem isBlank_expr {t : Token} {e : Node} (h : e ≠ .missing) : (Node.expr t e).isBlank = false := by
  cases e <;> first | rfl | exact absurd rfl h

theorem prunedList_eq : ∀ {ss : List Node}, (∀ s ∈ ss, s.isBlank = false ∧ s.pruned = s) → prunedList ss = ss
  | [], _ => rfl
  | s :: ss, h => by
    obtain ⟨⟨hb, hs⟩, hss⟩ := List.forall_mem_cons.1 h
    rw [prunedList, if_neg (by rw [hb]; exact Bool.false_ne_true), hs, prunedList_eq hss]

@[simp] theorem isBlank_core (n : Node) : n.core.isBlank = n.isBlank := by
  cases n with
  | expr t e => cases e <;> rfl
  | _ => rfl

theorem coreList_congr {s s' : Node} {ss ss' : List Node} (h : s.core = s'.core) (hs : coreList ss = coreList ss') :
    coreList (s :: ss) = coreList (s' :: ss') := by
  have hb : s.isBlank = s'.isBlank := by rw [← isBlank_core s, h, isBlank_core]
  cases h' : s'.isBlank with
  | true => rw [coreList_cons_blank (hb.trans h'), coreList_cons_blank h', hs]
  | false => rw [coreList_cons (hb.trans h'), coreList_cons h', h, hs]

theorem coreList_blanks (t : Token) (ss : List Node) (n : Nat) :
    coreList (List.replicate n (.expr t .missing) ++ ss) = coreList ss := by
  induction n with
  | zero => rfl
  | succ n ih => rw [List.replicate_succ, List.cons_append, coreList_cons_blank rfl, ih]

/-! ## Texts -/

@[simp] theorem isMissing_pruned (n : Node) : n.pruned.isMissing = n.isMissing := by
  cases n <;> rfl

@[simp] theorem isMissing_unlabelled (n : Node) : n.unlabelled.isMissing = n.isMissing := by
  cases n <;> rfl

@[simp] theorem isMissing_core (n : Node) : n.core.isMissing = n.isMissing := by
  cases n <;> rfl

mutual

theorem render_pruned : ∀ n : Node, n.pruned.render = n.render
  | .missing => rfl
  | .root ss => renderLines_pruned ss
  | .assign _ n v => by simp only [pruned, render, marked, isMissing_pruned, render_pruned n, render_pruned v]
  | .print _ v => by simp only [pruned, render, render_pruned v]
  | .expr _ e => by simp only [pruned, render, render_pruned e]
  | .block _ ss => by simp only [pruned, render, renderLines_pruned ss]
  | .cond _ c y n => by
    simp only [pruned, render, marked, isMissing_pruned, render_pruned c, render_pruned y, render_pruned n]
  | .loop _ c b => by simp only [pruned, render, marked, isMissing_pruned, render_pruned c, render_pruned b]
  | .ident _ _ => rfl
  | .int _ _ => rfl
  | .binary _ l _ r => by simp only [pruned, render, render_pruned l, render_pruned r]
  | .unary _ _ r => by simp only [pruned, render, render_pruned r]

/-- A blank statement has no text, and a statement without text has no line. -/
theorem renderLines_pruned : ∀ ss : List Node, renderLines (prunedList ss) = renderLines ss
  | [] => rfl
  | s :: ss => by
    rw [prunedList]
    split
    · next h =>
      obtain ⟨t, rfl⟩ := exists_of_isBlank h
      rw [renderLines_pruned ss]
      cases h : renderLines ss <;> simp [renderLines, marked, isMissing, render, h, bind, Except.bind, pure,
        Except.pure]
    · simp only [renderLines, marked, isMissing_pruned, render_pruned s, renderLines_pruned ss]

end

mutual

theorem render_unlabelled : ∀ n : Node, n.unlabelled.render = n.render
  | .missing => rfl
  | .root ss => renderLines_unlabelled ss
  | .assign _ n v => by
    simp only [unlabelled, render, marked, isMissing_unlabelled, render_unlabelled n, render_unlabelled v]
  | .print _ v => by simp only [unlabelled, render, render_unlabelled v]
  | .expr _ e => by simp only [unlabelled, render, render_unlabelled e]
  | .block _ ss => by simp only [unlabelled, render, renderLines_unlabelled ss]
  | .cond _ c y n => by
    simp only [unlabelled, render, marked, isMissing_unlabelled, render_unlabelled c, render_unlabelled y,
      render_unlabelled n]
  | .loop _ c b => by
    simp only [unlabelled, render, marked, isMissing_unlabelled, render_unlabelled c, render_unlabelled b]
  | .ident _ _ => rfl
  | .int _ _ => rfl
  | .binary _ l _ r => by simp only [unlabelled, render, render_unlabelled l, render_unlabelled r]
  | .unary _ _ r => by simp only [unlabelled, render, render_unlabelled r]

theorem renderLines_unlabelled : ∀ ss : List Node, renderLines (unlabelledList ss) = renderLines ss
  | [] => rfl
  | s :: ss => by
    simp only [unlabelledList, renderLines, marked, isMissing_unlabelled, render_unlabelled s,
      renderLines_unlabelled ss]

end

/-- Trees with the same core have the same text. -/
theorem shown_eq_of_core_eq {n m : Node} (h : n.core = m.core) : n.shown = m.shown := by
  have hr : ∀ k : Node, k.core.shown = k.shown := fun k => by
    rw [shown, marked, isMissing_core, core, render_unlabelled, render_pruned, shown, marked]
  rw [← hr n, h, hr m]

end LineLang.Node
