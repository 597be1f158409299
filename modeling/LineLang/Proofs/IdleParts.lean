import Mathlib
import LineLang.Proofs.Meaning
import LineLang.Proofs.Places
import LineLang.Proofs.RoundTrip

/-!
# Idle parts of a tree

Some parts of a tree do nothing when it is evaluated: the tokens, the blank statements, and what stands behind a print
statement in a block. Trees that differ in these only have the same meaning.

* `Node.bare` : a tree that has forgotten all its tokens;
* `meaning_bare`, `meaning_pruned` : neither tokens nor blank statements matter;
* `meaning_tolerant`, `meaning_reread` : so the trees that the two parsers make of a text mean the same, and so does a
  tree read back from its own text;
* `ends_iff_of_bare_eq` : such trees are evaluated alike;
* `upToPrint`, `Node.cut` : the statements up to the first print statement, and a tree whose blocks are all cut behind
  it;
* `meaning_cut`, `Node.cut_within` : cutting keeps the meaning, and no block of a cut tree goes on behind a print
  statement;
* `ends_cut` : both together.
-/

namespace LineLang

open Eval

/-! ## Tokens and blank statements -/

namespace Node

mutual

def bare : Node → Node
  | .missing => .missing
  | .root statements => .root (bareList statements)
  | .assign _ name value => .assign Lexeme.eof.token (bare name) (bare value)
  | .print _ value => .print Lexeme.eof.token (bare value)
  | .expr _ expression => .expr Lexeme.eof.token (bare expression)
  | .block _ statements => .block Lexeme.eof.token (bareList statements)
  | .cond _ condition yes no => .cond Lexeme.eof.token (bare condition) (bare yes) (bare no)
  | .loop _ condition body => .loop Lexeme.eof.token (bare condition) (bare body)
  | .ident _ name => .ident Lexeme.eof.token name
  | .int _ value => .int Lexeme.eof.token value
  | .binary _ left operator right => .binary Lexeme.eof.token (bare left) operator (bare right)
  | .unary _ operator right => .unary Lexeme.eof.token operator (bare right)

def bareList : List Node → List Node
  | [] => []
  | s :: ss => bare s :: bareList ss

end

theorem bareList_eq_map (ss : List Node) : bareList ss = ss.map bare := by
  induction ss with
  | nil => rfl
  | cons s ss ih => rw [bareList, ih, List.map_cons]

theorem unlabelledList_eq_map (ss : List Node) : unlabelledList ss = ss.map unlabelled := by
  induction ss with
  | nil => rfl
  | cons s ss ih => rw [unlabelledList, ih, List.map_cons]

/-- Forgetting all tokens forgets those of expression statements. -/
theorem bare_unlabelled (n : Node) : n.unlabelled.bare = n.bare := by
  have hlist : ∀ ss : List Node, (∀ s ∈ ss, s.unlabelled.bare = s.bare) →
      bareList (unlabelledList ss) = bareList ss := by
    intro ss h
    rw [bareList_eq_map, bareList_eq_map, unlabelledList_eq_map, List.map_map]
    exact List.map_congr_left h
  induction n using treeInduction with
  | missing => rfl
  | root ss ih => rw [unlabelled, bare, bare, hlist ss ih]
  | assign t x v ihx ihv => rw [unlabelled, bare, bare, ihx, ihv]
  | print t v ih => rw [unlabelled, bare, bare, ih]
  | expr t e ih => rw [unlabelled, bare, bare, ih]
  | block t ss ih => rw [unlabelled, bare, bare, hlist ss ih]
  | cond t c y n ihc ihy ihn => rw [unlabelled, bare, bare, ihc, ihy, ihn]
  | loop t c b ihc ihb => rw [unlabelled, bare, bare, ihc, ihb]
  | ident t x => rfl
  | int t v => rfl
  | binary t l o r ihl ihr => rw [unlabelled, bare, bare, ihl, ihr]
  | unary t o r ih => rw [unlabelled, bare, bare, ih]

end Node

theorem target_bare (n : Node) : target n.bare = target n := by
  cases n with
  | assign t x v => cases x <;> rfl
  | _ => rfl

theorem target_pruned (n : Node) : target n.pruned = target n := by
  cases n with
  | assign t x v => cases x <;> rfl
  | _ => rfl

theorem meaning_bare (level : Int) (n : Node) : meaning level n.bare = meaning level n := by
  induction n using Node.treeInduction with
  | missing => rfl
  | root ss ih => rw [Node.bare, meaning_root, meaning_root, Node.bareList_eq_map, program_map ih]
  | assign t x v _ ihv => rw [Node.bare, meaning_assign, meaning_assign, ihv, target_bare]
  | print t v ih => rw [Node.bare, meaning_print, meaning_print, ih]
  | expr t e ih => rw [Node.bare, meaning_expr, meaning_expr, ih]
  | block t ss ih => rw [Node.bare, meaning_block, meaning_block, Node.bareList_eq_map, block_map ih]
  | cond t c y n ihc ihy ihn => rw [Node.bare, meaning_cond, meaning_cond, ihc, ihy, ihn]
  | loop t c b ihc ihb => exact meaning_loop_congr level ihc ihb _ _
  | ident t x => rw [Node.bare, meaning_ident, meaning_ident]
  | int t v => rw [Node.bare, meaning_int, meaning_int]
  | binary t l o r ihl ihr => rw [Node.bare, meaning_binary, meaning_binary, ihl, ihr]
  | unary t o r _ => rw [Node.bare, meaning_unary, meaning_unary]

theorem meaning_pruned (level : Int) (n : Node) : meaning level n.pruned = meaning level n := by
  have hsolid : ∀ ss : List Node, (∀ s ∈ ss, meaning level s.pruned = meaning level s) →
      ∀ s ∈ Node.solid ss, meaning level s.pruned = meaning level s :=
    fun _ h s hs => h s (List.mem_filter.1 hs).1
  induction n using Node.treeInduction with
  | missing => rfl
  | root ss ih =>
    rw [Node.pruned, meaning_root, meaning_root, Node.prunedList_eq_map, program_map (hsolid ss ih),
      program_solid fun _ => meaning_blank level]
  | assign t x v _ ihv => rw [Node.pruned, meaning_assign, meaning_assign, ihv, target_pruned]
  | print t v ih => rw [Node.pruned, meaning_print, meaning_print, ih]
  | expr t e ih => rw [Node.pruned, meaning_expr, meaning_expr, ih]
  | block t ss ih =>
    rw [Node.pruned, meaning_block, meaning_block, Node.prunedList_eq_map, block_map (hsolid ss ih),
      block_solid fun _ => meaning_blank level]
  | cond t c y n ihc ihy ihn => rw [Node.pruned, meaning_cond, meaning_cond, ihc, ihy, ihn]
  | loop t c b ihc ihb => exact meaning_loop_congr level ihc ihb _ _
  | ident t x => rfl
  | int t v => rfl
  | binary t l o r ihl ihr => rw [Node.pruned, meaning_binary, meaning_binary, ihl, ihr]
  | unary t o r _ => rw [Node.pruned, meaning_unary, meaning_unary]

theorem ends_iff_of_meaning_eq {level : Int} {n m : Node} (h : meaning level n = meaning level m) (s s' : State)
    (o : Except Fault Value) : Ends level n s o s' ↔ Ends level m s o s' := by
  rw [ends_iff_meaning, ends_iff_meaning, h]

theorem meaning_eq_of_bare_eq {n m : Node} (h : n.pruned.bare = m.pruned.bare) (level : Int) :
    meaning level n = meaning level m :=
  calc meaning level n
    _ = meaning level n.pruned.bare := by rw [meaning_bare, meaning_pruned]
    _ = meaning level m.pruned.bare := by rw [h]
    _ = meaning level m := by rw [meaning_bare, meaning_pruned]

theorem Node.bare_eq_of_unlabelled_eq {n m : Node} (h : n.unlabelled = m.unlabelled) : n.bare = m.bare := by
  have hbare := congrArg bare h
  rwa [bare_unlabelled, bare_unlabelled] at hbare

theorem meaning_eq_of_core_eq {n m : Node} (h : n.core = m.core) (level : Int) : meaning level n = meaning level m :=
  meaning_eq_of_bare_eq (Node.bare_eq_of_unlabelled_eq h) level

/-! ### Trees of the parsers -/

theorem meaning_tolerant {text : String} {tree : Node} (h : Strict.parse text = .ok tree) (hp : PrintsEndLines text)
    (level : Int) : meaning level (Tolerant.parse text) = meaning level tree := by
  obtain ⟨d, hs, hd⟩ := hp
  obtain ⟨d', hs', rfl⟩ := Strict.parse_eq_ok_iff.1 h
  obtain rfl := d'.unambiguous d (hs'.unique hs)
  exact meaning_eq_of_core_eq (core_parse_of_derivation hs hd) level

section Reread

variable {t : Node} {text : String} (ht : Parsed t) (htext : t.shown = .ok text) (hc : .condition ∉ t.gaps)
  (ho : .operand ∉ t.gaps)

include ht htext hc ho

theorem meaning_reread (level : Int) : meaning level (Tolerant.parse text) = meaning level t := by
  have hopen : ∀ slot ∈ t.gaps, Open slot := by
    intro slot hslot
    cases slot with
    | statement => exact .inr rfl
    | value => exact .inl rfl
    | condition => exact absurd hslot hc
    | operand => exact absurd hslot ho
  obtain ⟨ss, rfl, hss⟩ := formed_of_gaps ht hopen
  obtain ⟨text', htext', hcore⟩ := tolerant_of_formed hss
  obtain rfl : text = text' := Except.ok.inj (htext.symm.trans htext')
  exact meaning_eq_of_core_eq hcore level

/-- A tree that lacks no values either is read back by the strict parser too. -/
theorem meaning_strict_reread (hv : .value ∉ t.gaps) :
    ∃ t', Strict.parse text = .ok t' ∧ ∀ level, meaning level t' = meaning level t := by
  have hblank : ∀ slot ∈ t.gaps, slot = .statement := by
    intro slot hslot
    cases slot with
    | statement => rfl
    | value => exact absurd hslot hv
    | condition => exact absurd hslot hc
    | operand => exact absurd hslot ho
  obtain ⟨ss, rfl, hss⟩ := formed_of_gaps ht hblank
  obtain ⟨text', t', htext', hparse, hcore⟩ := strict_of_formed (fun _ h => h) hss
  obtain rfl : text = text' := Except.ok.inj (htext.symm.trans htext')
  refine ⟨t', hparse, fun level => ?_⟩
  rw [← meaning_bare level t', Node.bare_eq_of_unlabelled_eq hcore, meaning_bare, meaning_pruned]

end Reread

/-- Trees that are the same once their tokens and their blank statements are gone are evaluated alike: from each state
both end or neither does, with the same outcome, the same store and the same events. So are the trees that the two
parsers make of a text that the strict one accepts, if prints end their lines in it; and so is a parsed tree without
missing conditions and operands with the tree that is read back from its text, by the strict parser too if no value is
missing. -/
theorem ends_iff_of_bare_eq :
    (∀ n m : Node, n.pruned.bare = m.pruned.bare → ∀ (level : Int) (s s' : State) (o : Except Fault Value),
      Ends level n s o s' ↔ Ends level m s o s') ∧
    (∀ (text : String) (tree : Node), Strict.parse text = .ok tree → PrintsEndLines text →
      ∀ (level : Int) (s s' : State) (o : Except Fault Value),
        Ends level (Tolerant.parse text) s o s' ↔ Ends level tree s o s') ∧
    ∀ (t : Node) (text : String), Parsed t → t.shown = .ok text → .condition ∉ t.gaps → .operand ∉ t.gaps →
      (∀ (level : Int) (s s' : State) (o : Except Fault Value),
        Ends level (Tolerant.parse text) s o s' ↔ Ends level t s o s') ∧
      (.value ∉ t.gaps → ∃ t', Strict.parse text = .ok t' ∧
        ∀ (level : Int) (s s' : State) (o : Except Fault Value), Ends level t' s o s' ↔ Ends level t s o s') := by
  refine ⟨fun n m h level => ?_, fun text tree h hp level => ?_, fun t text ht htext hc ho => ⟨fun level => ?_, ?_⟩⟩
  · exact ends_iff_of_meaning_eq (meaning_eq_of_bare_eq h level)
  · exact ends_iff_of_meaning_eq (meaning_tolerant h hp level)
  · exact ends_iff_of_meaning_eq (meaning_reread ht htext hc ho level)
  · intro hv
    obtain ⟨t', hparse, hmeaning⟩ := meaning_strict_reread ht htext hc ho hv
    exact ⟨t', hparse, fun level => ends_iff_of_meaning_eq (hmeaning level)⟩

/-- A loop with a blank line and a name in parentheses in its block. -/
def loopOnGroup : Grammar.Derivation .body :=
  let name : Grammar.Derivation (.expression Strict.topTier) := (Grammar.Derivation.name (.spelt .ident "a")).raise 6
  let parens : Grammar.Derivation .parens := .parens (.mark .lparen) name (.mark .rparen)
  let inner : Grammar.Derivation .block := .block (.mark .lbrace) (.body (some (.spelt .newline "\n\n"))
    (.line (.expr ((Grammar.Derivation.group parens).raise 6)) (.mark .newline) .noLine)) (.mark .rbrace)
  .body none (.lastLine (.expr ((Grammar.Derivation.loop (.mark .whileWord) parens inner).raise 6)))

/-- The parsers differ in the tokens and in the blank statement, and the text of the tree has neither the blank line nor
the parentheses. -/
theorem ends_iff_of_bare_eq_loopOnGroup :
    let text := "while (a) \x7b\n\n(a)\n\x7d"
    let text' := "while (a) \x7b\na\n\x7d\n"
    let tree := Node.root loopOnGroup.tree
    let s : State := { store := ⟨[(.str "a", .int 1)]⟩ }
    let s' : State := { s with log := [.tested (.int 1)] }
    Strict.parse text = .ok tree ∧ PrintsEndLines text ∧ tree.shown = .ok text' ∧ tree.gaps = [] ∧
    (Tolerant.parse text).pruned.bare = tree.pruned.bare ∧ (Tolerant.parse text).pruned ≠ tree.pruned ∧
    Ends 3 tree s (.ok (.int 1)) s' ∧ Ends 3 (Tolerant.parse text) s (.ok (.int 1)) s' ∧
    (∀ o u, Ends 3 (Tolerant.parse text) s o u ↔ Ends 3 tree s o u) ∧
    Ends 3 (Tolerant.parse text') s (.ok (.int 1)) s' ∧
    ∃ t', Strict.parse text' = .ok t' ∧ Ends 3 t' s (.ok (.int 1)) s' := by
  intro text text' tree s s'
  have hs : Strict.Splits text.toList loopOnGroup.yield := Strict.splits_iff_scan.2 ⟨by cbv, by cbv⟩
  have h : Strict.parse text = .ok tree := Strict.parse_eq_ok_iff.2 ⟨loopOnGroup, hs, rfl⟩
  have hp : PrintsEndLines text := ⟨loopOnGroup, hs, by decide⟩
  have hshown : tree.shown = .ok text' := by cbv
  have hgaps : tree.gaps = [] := by decide
  have hbare : (Tolerant.parse text).pruned.bare = tree.pruned.bare :=
    Node.bare_eq_of_unlabelled_eq (core_parse_of_derivation hs (by decide))
  have hends : Ends 3 tree s (.ok (.int 1)) s' := ⟨8, by cbv⟩
  obtain ⟨halike, htolerant, hreread⟩ := ends_iff_of_bare_eq
  obtain ⟨hread, hstrict⟩ := hreread tree text' (.inl ⟨text, h⟩) hshown (by rw [hgaps]; decide) (by rw [hgaps]; decide)
  obtain ⟨t', hparse, ht'⟩ := hstrict (by rw [hgaps]; decide)
  exact ⟨h, hp, hshown, hgaps, hbare, by decide +kernel, hends, (htolerant text tree h hp 3 _ _ _).2 hends,
    fun o u => halike _ _ hbare 3 s u o, (hread 3 _ _ _).2 hends, t', hparse, (ht' 3 _ _ _).2 hends⟩

/-! ## Statements behind a print statement -/

def Node.isPrint : Node → Bool
  | .print .. => true
  | _ => false

def upToPrint : List Node → List Node
  | [] => []
  | s :: ss => s :: if s.isPrint then [] else upToPrint ss

theorem mem_of_mem_upToPrint {ss : List Node} {x : Node} (h : x ∈ upToPrint ss) : x ∈ ss := by
  induction ss with
  | nil => exact h
  | cons s ss ih =>
    rw [upToPrint, List.mem_cons] at h
    rcases h with rfl | h
    · exact List.mem_cons_self
    · split at h
      · cases h
      · exact List.mem_cons_of_mem s (ih h)

theorem upToPrint_ends {ss before after : List Node} {x : Node} (h : upToPrint ss = before ++ x :: after)
    (hx : x.isPrint = true) : after = [] := by
  induction ss generalizing before with
  | nil => cases before <;> cases h
  | cons s ss ih =>
    rw [upToPrint] at h
    cases before with
    | nil =>
      obtain ⟨rfl, hrest⟩ := List.cons.inj h
      rw [if_pos hx] at hrest
      exact hrest.symm
    | cons b before =>
      have hrest := (List.cons.inj h).2
      split at hrest
      · cases before <;> cases hrest
      · exact ih hrest

/-- A print statement always has a value, so that a block ends there. -/
theorem block_upToPrint (level : Int) (ss : List Node) :
    block (meaning level) (upToPrint ss) = block (meaning level) ss := by
  induction ss with
  | nil => rfl
  | cons s ss ih =>
    cases s with
    | print t value =>
      rw [upToPrint, Node.isPrint, if_pos rfl, block_singleton, block, meaning_print, bind_assoc]
      simp only [pure_bind, Value.isMissing, Bool.false_eq_true, if_false]
    | _ => simp only [upToPrint, Node.isPrint, Bool.false_eq_true, if_false, block, ih]

namespace Node

mutual

def cut : Node → Node
  | .missing => .missing
  | .root statements => .root (cutList statements)
  | .assign token name value => .assign token (cut name) (cut value)
  | .print token value => .print token (cut value)
  | .expr token expression => .expr token (cut expression)
  | .block token statements => .block token (upToPrint (cutList statements))
  | .cond token condition yes no => .cond token (cut condition) (cut yes) (cut no)
  | .loop token condition body => .loop token (cut condition) (cut body)
  | .ident token name => .ident token name
  | .int token value => .int token value
  | .binary token left operator right => .binary token (cut left) operator (cut right)
  | .unary token operator right => .unary token operator (cut right)

def cutList : List Node → List Node
  | [] => []
  | s :: ss => cut s :: cutList ss

end

theorem cutList_eq_map (ss : List Node) : cutList ss = ss.map cut := by
  induction ss with
  | nil => rfl
  | cons s ss ih => rw [cutList, ih, List.map_cons]

theorem cut_parts (n : Node) {part : Place × Node} (h : part ∈ n.cut.parts) : ∃ m : Node, part.2 = m.cut := by
  have hmap : ∀ parts : List (Place × Node), part ∈ parts.map (fun q => (q.1, q.2.cut)) →
      ∃ m : Node, part.2 = m.cut := by
    intro parts hpart
    obtain ⟨q, -, rfl⟩ := List.mem_map.1 hpart
    exact ⟨q.2, rfl⟩
  have hlist : ∀ x, ∀ ss : List Node, x ∈ cutList ss → ∃ m : Node, x = m.cut := by
    intro x ss hx
    rw [cutList_eq_map] at hx
    obtain ⟨m, -, rfl⟩ := List.mem_map.1 hx
    exact ⟨m, rfl⟩
  have hn := hmap n.parts
  cases n with
  | root ss =>
    obtain ⟨x, hx, rfl⟩ := List.mem_map.1 h
    exact hlist x ss hx
  | block t ss =>
    obtain ⟨x, hx, rfl⟩ := List.mem_map.1 h
    exact hlist x ss (mem_of_mem_upToPrint hx)
  | _ => exact hn h

theorem cut_within {t n : Node} {p : Place} (h : Within t p n) : ∀ u : Node, t = u.cut → ∃ m : Node, n = m.cut := by
  induction h with
  | part hpart =>
    rintro u rfl
    exact cut_parts u hpart
  | deeper hpart _ ih =>
    rintro u rfl
    obtain ⟨m, hm⟩ := cut_parts u hpart
    exact ih m hm

/-- A block of a cut tree does not go on behind a print statement. -/
theorem cut_block_ends {n : Node} {t : Token} {before after : List Node} {x : Node}
    (h : .block t (before ++ x :: after) = n.cut) (hx : x.isPrint = true) : after = [] := by
  cases n with
  | block t' ss => exact upToPrint_ends (Node.block.inj h).2.symm hx
  | _ => cases h

end Node

theorem target_cut (n : Node) : target n.cut = target n := by
  cases n with
  | assign t x v => cases x <;> rfl
  | _ => rfl

theorem meaning_cut (level : Int) (n : Node) : meaning level n.cut = meaning level n := by
  induction n using Node.treeInduction with
  | missing => rfl
  | root ss ih => rw [Node.cut, meaning_root, meaning_root, Node.cutList_eq_map, program_map ih]
  | assign t x v _ ihv => rw [Node.cut, meaning_assign, meaning_assign, ihv, target_cut]
  | print t v ih => rw [Node.cut, meaning_print, meaning_print, ih]
  | expr t e ih => rw [Node.cut, meaning_expr, meaning_expr, ih]
  | block t ss ih =>
    rw [Node.cut, meaning_block, meaning_block, block_upToPrint, Node.cutList_eq_map, block_map ih]
  | cond t c y n ihc ihy ihn => rw [Node.cut, meaning_cond, meaning_cond, ihc, ihy, ihn]
  | loop t c b ihc ihb => exact meaning_loop_congr level ihc ihb _ _
  | ident t x => rfl
  | int t v => rfl
  | binary t l o r ihl ihr => rw [Node.cut, meaning_binary, meaning_binary, ihl, ihr]
  | unary t o r _ => rw [Node.cut, meaning_unary, meaning_unary]

/-- A tree with its blocks cut behind their first print statements, at every depth, is evaluated as the tree itself is:
from each state both end or neither does, with the same outcome, the same store and the same events. And the blocks of
the cut tree, wherever they stand, do not go on behind a print statement. -/
theorem ends_cut (n : Node) :
    (∀ (level : Int) (s s' : State) (o : Except Fault Value), Ends level n.cut s o s' ↔ Ends level n s o s') ∧
    ∀ (t : Token) (before after : List Node) (x : Node),
      (.block t (before ++ x :: after) = n.cut ∨ ∃ p, Within n.cut p (.block t (before ++ x :: after))) →
      x.isPrint = true → after = [] := by
  refine ⟨fun level => ends_iff_of_meaning_eq (meaning_cut level n), fun t before after x h hx => ?_⟩
  rcases h with h | ⟨p, h⟩
  · exact Node.cut_block_ends h hx
  · obtain ⟨m, hm⟩ := Node.cut_within h n rfl
    exact Node.cut_block_ends hm hx

/-- A loop whose block goes on behind a print statement without a value, as an operand. -/
def deadAssignment : Node :=
  let token : Token := Lexeme.eof.token
  let set (n : Int) : Node := .assign token (.ident token (.str "x")) (.int token n)
  .binary token (.int token 1) (.str "+")
    (.loop token (.int token 1)
      (.block token [set 1, .print token .missing, set 2, .loop token (.int token 1) .missing]))

theorem ends_cut_deadAssignment :
    let token : Token := Lexeme.eof.token
    let set : Node := .assign token (.ident token (.str "x")) (.int token 1)
    let block (after : List Node) : Node := .block token ([set] ++ .print token .missing :: after)
    let s : State := { store := ⟨[(.str "x", .int 1)]⟩, log := [.assigned (.str "x") (.int 1), .tested (.int 1)] }
    deadAssignment.cut = .binary token (.int token 1) (.str "+") (.loop token (.int token 1) (block [])) ∧
    Within deadAssignment.cut .body (block []) ∧ (∀ after, Within deadAssignment.cut .body (block after) → after = []) ∧
    Ends 3 deadAssignment.cut { store := .empty } (.ok .missing) s ∧
    Ends 3 deadAssignment { store := .empty } (.ok .missing) s := by
  intro token set block s
  have hcut : deadAssignment.cut =
      .binary token (.int token 1) (.str "+") (.loop token (.int token 1) (block [])) := rfl
  have hbody : Within deadAssignment.cut .body (block []) := by
    rw [hcut]
    exact .deeper (.tail _ List.mem_cons_self) (.part (.tail _ List.mem_cons_self))
  have hends : Ends 3 deadAssignment.cut { store := .empty } (.ok .missing) s := ⟨8, by cbv⟩
  obtain ⟨halike, hblocks⟩ := ends_cut deadAssignment
  exact ⟨hcut, hbody, fun after h => hblocks _ _ _ _ (.inr ⟨_, h⟩) rfl, hends, (halike 3 _ _ _).1 hends⟩

end LineLang
