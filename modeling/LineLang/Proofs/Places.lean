import Mathlib
import LineLang.Proofs.Numerals
import LineLang.Proofs.Parts
import LineLang.Proofs.RoundTrip

/-!
# What stands where in a parsed tree

Trees from files may hold any node in any place, with any token. Those who work on parsed trees rely on less: each
place of such a tree admits a few kinds of nodes only, and each node carries the token that it was made of.

* `Within t p n` : the node `n` stands in the tree `t`, at some depth, in the place `p`;
* `Place.kinds lacking p` : the kinds of nodes that the place `p` of a parsed tree admits;
* `Node.Marked` : a node agrees with its token;
* `Numeral.literalValue_inRange` : the value of a run of digits is a word, and not negative;
* `Formed.parts` : the parts of a formed node are formed;
* `parsed_shape` : the trees of both parsers have that shape, and a strict tree lacks nothing.
-/

namespace LineLang

open Strict Grammar

/-! ## Places -/

inductive Within : (t : Node) → (p : Place) → (n : Node) → Prop where
  | part {t n : Node} {p : Place} (h : (p, n) ∈ t.parts) : Within t p n
  | deeper {t u n : Node} {p q : Place} (h : (q, u) ∈ t.parts) (hn : Within u p n) : Within t p n

/-- The kinds of nodes that a place of a parsed tree admits. Only in a tree that may be `lacking` can an expression be
absent; a second branch can be absent in every tree. -/
def Place.kinds (lacking : Bool) : Place → List String
  | .statement => ["AssignStatement", "PrintStatement", "ExpressionStatement"]
  | .target => ["Identifier"]
  | .yes | .body => ["BlockStatement"]
  | .no => ["BlockStatement", "NoneType"]
  | .value | .expression | .condition | .operand =>
    ["Identifier", "IntegerLiteral", "InfixExpression", "IfExpression", "WhileExpression"] ++
      if lacking then ["NoneType"] else []

/-- The binary operators: the kinds of their tokens and the texts. -/
def operatorMarks : List (Kind × String) :=
  [(.plus, "+"), (.minus, "-"), (.star, "*"), (.slash, "/"), (.percent, "%"), (.equal, "=="), (.notEqual, "!="),
   (.less, "<"), (.greater, ">"), (.atMost, "<="), (.atLeast, ">="), (.both, "&&"), (.either, "||")]

def Node.Marked : Node → Prop
  | .block token _ => token = ⟨.lbrace, .str "\x7b"⟩
  | .ident token name => ∃ word : String, token = ⟨.ident, .str word⟩ ∧ name = .str word ∧
      word.toList ≠ [] ∧ (∀ c ∈ word.toList, isLetter c = true) ∧ word ∉ ["print", "if", "else", "while"]
  | .int token value => ∃ text : String, token = ⟨.num, .str text⟩ ∧ value = Numeral.literalValue text ∧
      0 ≤ value ∧ value ≤ 2 ^ 63 - 1
  | .binary token _ operator _ => ∃ mark ∈ operatorMarks, token = ⟨mark.1, .str mark.2⟩ ∧ operator = .str mark.2
  | _ => True

/-- The shape that all who work on parsed trees rely on. -/
structure Node.Shaped (lacking : Bool) (t : Node) : Prop where
  root : ∃ statements, t = .root statements
  kinds : ∀ p n, Within t p n → n.kind ∈ p.kinds lacking
  marked : ∀ p n, Within t p n → n.Marked
  /-- A program is not part of another node, and no operator stands before its operand. -/
  inner : ∀ p n, Within t p n → n.kind ∉ ["Root", "PrefixExpression"]
  block : ∀ p n, Within t p n → n.kind = "BlockStatement" → p = .yes ∨ p = .no ∨ p = .body

/-! ## Numbers -/

namespace Numeral

/-- The value of a run of digits is a word, and not negative. -/
theorem literalValue_inRange {s : String} (hne : s.toList ≠ []) (h : ∀ c ∈ s.toList, isDigit c = true) :
    0 ≤ literalValue s ∧ literalValue s ≤ 2 ^ 63 - 1 := by
  rw [literalValue_of_digits hne h]
  split <;> omega

end Numeral

/-! ## Formed trees -/

theorem mem_operatorMarks {k : Kind} (h : (tier? k).isSome = true) : (k, k.spelling) ∈ operatorMarks := by
  cases k <;> first | decide | exact absurd h (by decide)

theorem marked_ofName {x : Lexeme} (hx : IsTerminal x) (hk : x.kind = .ident) : (Node.ofName x).Marked := by
  obtain ⟨k, word⟩ := x
  obtain rfl : k = .ident := hk
  obtain ⟨hne, hletters, hword⟩ : Spells .ident word.toList := hx
  refine ⟨word, rfl, rfl, hne, hletters, fun hmem => hword ?_⟩
  simp only [List.mem_cons, List.not_mem_nil, or_false] at hmem
  rcases hmem with rfl | rfl | rfl | rfl <;> decide

theorem marked_integer {x : Lexeme} (hx : IsTerminal x) (hk : x.kind = .num) : (Tolerant.integer x).Marked := by
  obtain ⟨k, text⟩ := x
  obtain rfl : k = .num := hk
  obtain ⟨hne, hdigits⟩ : Spells .num text.toList := hx
  exact ⟨text, rfl, rfl, Numeral.literalValue_inRange hne hdigits⟩

namespace Formed

variable {gap : Slot → Prop} {r : Role} {n : Node}

theorem marked (h : Formed gap r n) : n.Marked := by
  induction h with
  | name hx hk => exact marked_ofName hx hk
  | number hx hk => exact marked_integer hx hk
  | binary hk => exact ⟨_, mem_operatorMarks hk, rfl, rfl⟩
  | block => rfl
  | placed _ ih => exact ih
  | _ => trivial

/-- What a place of a formed node holds. -/
def At (gap : Slot → Prop) (n : Node) : Place → Prop
  | .statement => Formed gap .statement n
  | .target => ∃ x : Lexeme, IsTerminal x ∧ x.kind = .ident ∧ n = .ofName x
  | .value => Formed gap (.place .value) n
  | .expression => Formed gap (.place .statement) n
  | .condition => Formed gap (.place .condition) n
  | .yes | .body => Formed gap .block n
  | .no => n = .missing ∨ Formed gap .block n
  | .operand => Formed gap (.place .operand) n

/-- The parts of a formed node are formed. -/
theorem parts (h : Formed gap r n) : ∀ part ∈ n.parts, At gap part.2 part.1 := by
  induction h with
  | placed _ ih => exact ih
  | empty | name | number => exact fun part hp => absurd hp List.not_mem_nil
  | binary _ hl hr => exact List.forall_mem_cons.2 ⟨hl, List.forall_mem_singleton.2 hr⟩
  | choice hc hy =>
    exact List.forall_mem_cons.2 ⟨hc, List.forall_mem_cons.2 ⟨hy, List.forall_mem_singleton.2 (.inl rfl)⟩⟩
  | choiceElse hc hy hn =>
    exact List.forall_mem_cons.2 ⟨hc, List.forall_mem_cons.2 ⟨hy, List.forall_mem_singleton.2 (.inr hn)⟩⟩
  | loop hc hb => exact List.forall_mem_cons.2 ⟨hc, List.forall_mem_singleton.2 hb⟩
  | block hs => exact List.forall_mem_map.2 hs
  | assign hx hk hv => exact List.forall_mem_cons.2 ⟨⟨_, hx, hk, rfl⟩, List.forall_mem_singleton.2 hv⟩
  | print hv => exact List.forall_mem_singleton.2 hv
  | expr _ he => exact List.forall_mem_singleton.2 he

/-- A formed node in a place, or nothing. -/
theorem At.formed {p : Place} (h : At gap n p) : n = .missing ∨ ∃ r, Formed gap r n := by
  cases p with
  | target =>
    obtain ⟨x, hx, hk, rfl⟩ := h
    exact .inr ⟨_, .name hx hk⟩
  | no => exact h.imp_right fun h => ⟨_, h⟩
  | _ => exact .inr ⟨_, h⟩

theorem At.within {t : Node} {p : Place} (hw : Within t p n) (h : ∀ part ∈ t.parts, At gap part.2 part.1) :
    At gap n p := by
  induction hw with
  | part hp => exact h _ hp
  | deeper hp _ ih =>
    refine ih ?_
    rcases (h _ hp).formed with hm | ⟨r, hf⟩
    · dsimp only at hm
      rw [hm]
      exact fun part hp => absurd hp List.not_mem_nil
    · exact hf.parts

theorem kind_expression (h : Formed gap .expression n) :
    n.kind ∈ ["Identifier", "IntegerLiteral", "InfixExpression", "IfExpression", "WhileExpression"] := by
  cases h <;> simp [Node.kind, Node.ofName, Tolerant.integer]

theorem At.kind {p : Place} {lacking : Bool} (h : At gap n p) (hg : ∀ s, gap s → lacking = true) :
    n.kind ∈ p.kinds lacking := by
  -- An expression that is absent is a gap of the tree.
  have hplace : ∀ {s : Slot}, Formed gap (.place s) n →
      n.kind ∈ ["Identifier", "IntegerLiteral", "InfixExpression", "IfExpression", "WhileExpression"] ++
        if lacking then ["NoneType"] else [] := by
    intro s h
    cases h with
    | empty hs => simp [hg s hs, Node.kind]
    | placed he => exact List.mem_append_left _ he.kind_expression
  have hblock : Formed gap .block n → n.kind = "BlockStatement" := by
    rintro ⟨⟩
    rfl
  cases p with
  | statement => cases h <;> simp [Node.kind, Place.kinds]
  | target =>
    obtain ⟨x, -, -, rfl⟩ := h
    exact List.mem_singleton.2 rfl
  | yes => exact List.mem_singleton.2 (hblock h)
  | body => exact List.mem_singleton.2 (hblock h)
  | no =>
    rcases h with rfl | h
    · simp [Node.kind, Place.kinds]
    · simp [hblock h, Place.kinds]
  | value => exact hplace h
  | expression => exact hplace h
  | condition => exact hplace h
  | operand => exact hplace h

theorem At.marked {p : Place} (h : At gap n p) : n.Marked := by
  rcases h.formed with rfl | ⟨r, hf⟩
  · trivial
  · exact hf.marked

end Formed

theorem Place.not_mem_kinds (lacking : Bool) (p : Place) : ∀ k ∈ p.kinds lacking, k ∉ ["Root", "PrefixExpression"] := by
  cases lacking <;> cases p <;> decide

theorem Place.of_block_mem_kinds {lacking : Bool} {p : Place} (h : "BlockStatement" ∈ p.kinds lacking) :
    p = .yes ∨ p = .no ∨ p = .body := by
  cases lacking <;> cases p <;> first | decide | exact absurd h (by decide)

theorem shaped_of_formed {gap : Slot → Prop} {lacking : Bool} (hg : ∀ s, gap s → lacking = true) {ss : List Node}
    (h : ∀ n ∈ ss, Formed gap .statement n) : (Node.root ss).Shaped lacking := by
  have hat : ∀ {p n}, Within (.root ss) p n → Formed.At gap n p := fun hw =>
    Formed.At.within hw (List.forall_mem_map.2 h)
  have hkinds : ∀ p n, Within (.root ss) p n → n.kind ∈ p.kinds lacking := fun p n hw => (hat hw).kind hg
  exact {
    root := ⟨ss, rfl⟩
    kinds := hkinds
    marked := fun p n hw => (hat hw).marked
    inner := fun p n hw => Place.not_mem_kinds lacking p _ (hkinds p n hw)
    block := fun p n hw hk => Place.of_block_mem_kinds (hk ▸ hkinds p n hw) }

/-- The tree of a text has the shape of a parsed tree, and a tree that the strict parser returns lacks nothing but
second branches. -/
theorem parsed_shape :
    (∀ s : String, (Tolerant.parse s).Shaped true) ∧
      ∀ (s : String) (t : Node), Strict.parse s = .ok t → t.Shaped false := by
  constructor
  · intro s
    obtain ⟨ss, hroot, hss⟩ := formed_tolerant s
    rw [hroot]
    exact shaped_of_formed (fun _ _ => rfl) hss
  · intro s t ht
    obtain ⟨ss, rfl, hss⟩ := formed_of_parse ht
    exact shaped_of_formed (fun _ h => h.elim) hss

/-- A loop around a choice with two branches. -/
def loopOnChoice : Derivation .body :=
  let name (x : String) : Derivation (.expression 0) := .name (.spelt .ident x)
  let number (x : String) : Derivation (.expression 0) := .number (.spelt .num x)
  let parens (e : Derivation (.expression 0)) : Derivation .parens :=
    .parens (.mark .lparen) (e.raise 6) (.mark .rparen)
  let braces (s : Derivation .statement) : Derivation .block :=
    .block (.mark .lbrace) (.body none (.lastLine s)) (.mark .rbrace)
  let less : Derivation (.expression 2) :=
    .chain ((name "x").raise 1) (.operand ⟨.mark .minus, by decide⟩ ((number "1").raise 1) .stop)
  let choice : Derivation (.expression 0) :=
    .choiceElse (.mark .ifWord) (parens (name "x"))
      (braces (.assign (.spelt .ident "x") (.mark .assign) (less.raise 4))) (.mark .elseWord)
      (braces (.print (.mark .printWord) ((number "0").raise 6)))
  .body none (.lastLine (.expr
    ((Derivation.loop (.mark .whileWord) (parens (name "x")) (braces (.expr (choice.raise 6)))).raise 6)))

theorem parsed_shape_loop :
    Strict.parse "while (x) \x7bif (x) \x7bx = x - 1\x7d else \x7bprint 0\x7d\x7d" = .ok (.root loopOnChoice.tree) ∧
    Within (.root loopOnChoice.tree) .operand (.int ⟨.num, .str "1"⟩ 1) ∧
    (Node.root loopOnChoice.tree).Shaped false := by
  have hs : Splits "while (x) \x7bif (x) \x7bx = x - 1\x7d else \x7bprint 0\x7d\x7d".toList loopOnChoice.yield :=
    Strict.splits_iff_scan.2 ⟨by cbv, by cbv⟩
  have h := Strict.parse_eq_ok_iff.2 ⟨loopOnChoice, hs, rfl⟩
  have hone : Numeral.literalValue "1" = 1 := by cbv
  -- The body of the loop, the first branch of the choice in it, and the value of the assignment there.
  have hw : Within (.root loopOnChoice.tree) .operand (.int ⟨.num, .str "1"⟩ (Numeral.literalValue "1")) :=
    .deeper (.head _) <| .deeper (.head _) <| .deeper (.tail _ (.head _)) <| .deeper (.head _) <|
      .deeper (.head _) <| .deeper (.tail _ (.head _)) <| .deeper (.head _) <| .deeper (.tail _ (.head _)) <|
        .part (.tail _ (.head _))
  rw [hone] at hw
  exact ⟨h, hw, parsed_shape.2 _ _ h⟩

end LineLang
