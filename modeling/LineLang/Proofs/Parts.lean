import LineLang.Tree.Basic

/-!
# The parts of a tree

* `Node.treeInduction` : induction on trees, with the statements of a list as its members;
* `Place`, `Node.parts` : the parts of a node, and where each of them stands in it;
* `Node.children idle` : the parts of a node that are evaluated, and with `idle` also the others;
* `Node.nodes idle` : all nodes of a tree that such parts lead to. What a tree has of a kind, such as the names that it
  reads, is what its nodes have;
* `Node.nodes_subset`, `Node.mem_nodes_of_part`, `Node.nodes_mono` : the nodes of a part, the parts of a node, and idle
  parts.
-/

namespace LineLang

/-- Where a node stands in the one around it. -/
inductive Place where
  /-- In the statements of a program or of a block. -/
  | statement
  /-- The name that an assignment sets. -/
  | target
  /-- The value of an assignment or of a print statement. -/
  | value
  | expression
  /-- The condition of a choice or of a loop. -/
  | condition
  /-- The first branch of a choice. -/
  | yes
  /-- The second branch of a choice. -/
  | no
  | body
  | operand
  deriving DecidableEq, Repr

namespace Node

/-- What holds of a node whenever it holds of all its parts holds of every tree. -/
@[elab_as_elim]
theorem treeInduction {P : Node → Prop} (missing : P .missing) (root : ∀ ss, (∀ s ∈ ss, P s) → P (.root ss))
    (assign : ∀ t name value, P name → P value → P (.assign t name value))
    (print : ∀ t value, P value → P (.print t value)) (expr : ∀ t e, P e → P (.expr t e))
    (block : ∀ t ss, (∀ s ∈ ss, P s) → P (.block t ss))
    (cond : ∀ t condition yes no, P condition → P yes → P no → P (.cond t condition yes no))
    (loop : ∀ t condition body, P condition → P body → P (.loop t condition body))
    (ident : ∀ t name, P (.ident t name)) (int : ∀ t value, P (.int t value))
    (binary : ∀ t left operator right, P left → P right → P (.binary t left operator right))
    (unary : ∀ t operator right, P right → P (.unary t operator right)) (n : Node) : P n := by
  have ih : ∀ m : Node, sizeOf m < sizeOf n → P m := fun m _ =>
    treeInduction missing root assign print expr block cond loop ident int binary unary m
  cases n with
  | missing => exact missing
  | root ss =>
    rw [Node.root.sizeOf_spec] at ih
    exact root ss fun s hs => ih s (by have := List.sizeOf_lt_of_mem hs; omega)
  | assign t x v =>
    rw [Node.assign.sizeOf_spec] at ih
    exact assign t x v (ih x (by omega)) (ih v (by omega))
  | print t v =>
    rw [Node.print.sizeOf_spec] at ih
    exact print t v (ih v (by omega))
  | expr t e =>
    rw [Node.expr.sizeOf_spec] at ih
    exact expr t e (ih e (by omega))
  | block t ss =>
    rw [Node.block.sizeOf_spec] at ih
    exact block t ss fun s hs => ih s (by have := List.sizeOf_lt_of_mem hs; omega)
  | cond t c y n =>
    rw [Node.cond.sizeOf_spec] at ih
    exact cond t c y n (ih c (by omega)) (ih y (by omega)) (ih n (by omega))
  | loop t c b =>
    rw [Node.loop.sizeOf_spec] at ih
    exact loop t c b (ih c (by omega)) (ih b (by omega))
  | ident t x => exact ident t x
  | int t v => exact int t v
  | binary t l o r =>
    rw [Node.binary.sizeOf_spec] at ih
    exact binary t l o r (ih l (by omega)) (ih r (by omega))
  | unary t o r =>
    rw [Node.unary.sizeOf_spec] at ih
    exact unary t o r (ih r (by omega))
termination_by sizeOf n

def parts : Node → List (Place × Node)
  | .missing | .ident .. | .int .. => []
  | .root statements | .block _ statements => statements.map (Place.statement, ·)
  | .assign _ name value => [(.target, name), (.value, value)]
  | .print _ value => [(.value, value)]
  | .expr _ expression => [(.expression, expression)]
  | .cond _ condition yes no => [(.condition, condition), (.yes, yes), (.no, no)]
  | .loop _ condition body => [(.condition, condition), (.body, body)]
  | .binary _ left _ right => [(.operand, left), (.operand, right)]
  | .unary _ _ right => [(.operand, right)]

/-- The parts of a node without their places. The target of an assignment and the operand of a unary operator are idle:
they are not evaluated, and are left out unless they are asked for. -/
def children (idle : Bool) (n : Node) : List Node :=
  match idle, n with
  | false, .assign _ _ value => [value]
  | false, .unary .. => []
  | _, n => n.parts.map Prod.snd

@[simp] theorem children_root (idle : Bool) (ss : List Node) : (root ss).children idle = ss := by
  simp [children, parts, Function.comp_def]

@[simp] theorem children_block (idle : Bool) (t : Token) (ss : List Node) : (block t ss).children idle = ss := by
  simp [children, parts, Function.comp_def]

mutual

/-- The nodes of a tree, each in front of those of its parts. -/
def nodes (idle : Bool) : Node → List Node
  | .missing => [.missing]
  | .root statements => .root statements :: nodesList idle statements
  | .assign token name value =>
    .assign token name value :: if idle then nodes idle name ++ nodes idle value else nodes idle value
  | .print token value => .print token value :: nodes idle value
  | .expr token expression => .expr token expression :: nodes idle expression
  | .block token statements => .block token statements :: nodesList idle statements
  | .cond token condition yes no =>
    .cond token condition yes no :: (nodes idle condition ++ (nodes idle yes ++ nodes idle no))
  | .loop token condition body => .loop token condition body :: (nodes idle condition ++ nodes idle body)
  | .ident token name => [.ident token name]
  | .int token value => [.int token value]
  | .binary token left operator right =>
    .binary token left operator right :: (nodes idle left ++ nodes idle right)
  | .unary token operator right => .unary token operator right :: if idle then nodes idle right else []

def nodesList (idle : Bool) : List Node → List Node
  | [] => []
  | s :: ss => nodes idle s ++ nodesList idle ss

end

variable {idle : Bool} {n m p : Node}

theorem nodesList_eq_flatMap (idle : Bool) (ss : List Node) : nodesList idle ss = ss.flatMap (nodes idle) := by
  induction ss with
  | nil => rfl
  | cons s ss ih => rw [nodesList, ih, List.flatMap_cons]

theorem nodes_eq (idle : Bool) (n : Node) : n.nodes idle = n :: (n.children idle).flatMap (nodes idle) := by
  cases n with
  | root ss => rw [nodes, nodesList_eq_flatMap, children_root]
  | block t ss => rw [nodes, nodesList_eq_flatMap, children_block]
  | assign t x v => cases idle <;> simp [nodes, children, parts]
  | unary t o r => cases idle <;> simp [nodes, children, parts]
  | _ => simp [nodes, children, parts]

theorem mem_nodes : m ∈ n.nodes idle ↔ m = n ∨ ∃ p ∈ n.children idle, m ∈ p.nodes idle := by
  rw [nodes_eq, List.mem_cons, List.mem_flatMap]

theorem nodes_subset (hp : p ∈ n.children idle) (hm : m ∈ p.nodes idle) : m ∈ n.nodes idle :=
  mem_nodes.2 (.inr ⟨p, hp, hm⟩)

theorem filterMap_nodes_subset {α : Type} {f : Node → Option α} (hp : p ∈ n.children idle) {x : α}
    (hx : x ∈ (p.nodes idle).filterMap f) : x ∈ (n.nodes idle).filterMap f := by
  obtain ⟨m, hm, hfm⟩ := List.mem_filterMap.1 hx
  exact List.mem_filterMap.2 ⟨m, nodes_subset hp hm, hfm⟩

theorem children_mono (n : Node) : ∀ p ∈ n.children false, p ∈ n.children true := by
  cases n <;> simp [children, parts]

/-- What holds of a node whenever it holds of its parts holds of every tree. -/
theorem childInduction {P : Node → Prop} (h : ∀ n : Node, (∀ p ∈ n.children true, P p) → P n) (n : Node) : P n := by
  induction n using treeInduction with
  | missing | ident | int => exact h _ (List.forall_mem_nil _)
  | root ss ih => exact h _ (by simpa using ih)
  | block t ss ih => exact h _ (by simpa using ih)
  | print t v ih => exact h _ (List.forall_mem_singleton.2 ih)
  | expr t e ih => exact h _ (List.forall_mem_singleton.2 ih)
  | unary t o r ih => exact h _ (List.forall_mem_singleton.2 ih)
  | assign t x v ihx ihv => exact h _ (List.forall_mem_cons.2 ⟨ihx, List.forall_mem_singleton.2 ihv⟩)
  | loop t c b ihc ihb => exact h _ (List.forall_mem_cons.2 ⟨ihc, List.forall_mem_singleton.2 ihb⟩)
  | binary t l o r ihl ihr => exact h _ (List.forall_mem_cons.2 ⟨ihl, List.forall_mem_singleton.2 ihr⟩)
  | cond t c y no ihc ihy ihn =>
    exact h _ (List.forall_mem_cons.2 ⟨ihc, List.forall_mem_cons.2 ⟨ihy, List.forall_mem_singleton.2 ihn⟩⟩)

theorem nodes_mono (n : Node) : ∀ m ∈ n.nodes false, m ∈ n.nodes true := by
  induction n using childInduction with
  | h n ih =>
    intro m hm
    rcases mem_nodes.1 hm with rfl | ⟨p, hp, hm⟩
    · exact mem_nodes.2 (.inl rfl)
    · have hp := children_mono n p hp
      exact nodes_subset hp (ih p hp m hm)

theorem mem_nodes_of_part (n : Node) : ∀ m ∈ n.nodes true, ∀ p ∈ m.children true, p ∈ n.nodes true := by
  induction n using childInduction with
  | h n ih =>
    intro m hm p hp
    rcases mem_nodes.1 hm with rfl | ⟨q, hq, hm⟩
    · exact nodes_subset hp (mem_nodes.2 (.inl rfl))
    · exact nodes_subset hq (ih q hq m hm p hp)

def name? : Node → Option Json
  | .ident _ name => some name
  | _ => none

end Node

end LineLang
