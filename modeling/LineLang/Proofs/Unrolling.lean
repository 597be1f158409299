import LineLang.Proofs.Coupling
import LineLang.Proofs.Places

/-!
# Unrolling a loop

A loop does the same as a choice on its condition whose block ends with the loop itself, and no tree around the loop can
tell the two apart. Only what is told of the run shows the difference: in the trace the first condition is that of a
choice, and where the loop stands in place of a name the fault names a choice.

* `Frame`, `plug` : a node with one part left open, and a tree around an open part; every place in a tree has one,
  `exists_plug_of_within`;
* `Event.asTest`, `Fault.asLoop` : an event or a fault, with a choice told as a loop;
* `Coupling.retold` : pairs of states with the same store and the same events apart from that;
* `Interchangeable` : nodes that can stand for each other in every frame, `Interchangeable.fill`;
* `interchangeable_unrolled` : a loop and the choice made of it;
* `ends_unrolled` : so they can be exchanged in every tree.
-/

namespace LineLang

open Eval

/-! ## Trees with an open part -/

inductive Frame where
  | root (before after : List Node)
  | target (token : Token) (value : Node)
  | assigned (token : Token) (name : Node)
  | print (token : Token)
  | expr (token : Token)
  | block (token : Token) (before after : List Node)
  | chosen (token : Token) (yes no : Node)
  | yes (token : Token) (condition no : Node)
  | no (token : Token) (condition yes : Node)
  | tested (token : Token) (body : Node)
  | body (token : Token) (condition : Node)
  | left (token : Token) (operator : Json) (right : Node)
  | right (token : Token) (left : Node) (operator : Json)
  | operand (token : Token) (operator : Json)

/-- The node with the given tree as its open part. -/
def Frame.fill (hole : Node) : Frame → Node
  | .root before after => .root (before ++ hole :: after)
  | .target t v => .assign t hole v
  | .assigned t x => .assign t x hole
  | .print t => .print t hole
  | .expr t => .expr t hole
  | .block t before after => .block t (before ++ hole :: after)
  | .chosen t y n => .cond t hole y n
  | .yes t c n => .cond t c hole n
  | .no t c y => .cond t c y hole
  | .tested t b => .loop t hole b
  | .body t c => .loop t c hole
  | .left t o r => .binary t hole o r
  | .right t l o => .binary t l o hole
  | .operand t o => .unary t o hole

/-- The tree with the given one in the innermost of the frames, the outermost frame first. -/
def plug (n : Node) : List Frame → Node
  | [] => n
  | frame :: frames => frame.fill (plug n frames)

theorem exists_fill_of_part {t n : Node} {p : Place} (h : (p, n) ∈ t.parts) : ∃ frame : Frame, frame.fill n = t := by
  have hlist : ∀ ss : List Node, (p, n) ∈ ss.map (Place.statement, ·) → ∃ before after, before ++ n :: after = ss := by
    intro ss hss
    obtain ⟨x, hx, heq⟩ := List.mem_map.1 hss
    obtain rfl := (Prod.mk.inj heq).2
    obtain ⟨before, after, rfl⟩ := List.append_of_mem hx
    exact ⟨before, after, rfl⟩
  cases t with
  | missing => cases h
  | root ss =>
    obtain ⟨before, after, rfl⟩ := hlist ss h
    exact ⟨.root before after, rfl⟩
  | block token ss =>
    obtain ⟨before, after, rfl⟩ := hlist ss h
    exact ⟨.block token before after, rfl⟩
  | assign token name value =>
    simp only [Node.parts, List.mem_cons, Prod.mk.injEq, List.not_mem_nil, or_false] at h
    rcases h with ⟨-, rfl⟩ | ⟨-, rfl⟩
    · exact ⟨.target token value, rfl⟩
    · exact ⟨.assigned token name, rfl⟩
  | print token value =>
    obtain rfl := (Prod.mk.inj (List.mem_singleton.1 h)).2
    exact ⟨.print token, rfl⟩
  | expr token e =>
    obtain rfl := (Prod.mk.inj (List.mem_singleton.1 h)).2
    exact ⟨.expr token, rfl⟩
  | cond token c y no =>
    simp only [Node.parts, List.mem_cons, Prod.mk.injEq, List.not_mem_nil, or_false] at h
    rcases h with ⟨-, rfl⟩ | ⟨-, rfl⟩ | ⟨-, rfl⟩
    · exact ⟨.chosen token y no, rfl⟩
    · exact ⟨.yes token c no, rfl⟩
    · exact ⟨.no token c y, rfl⟩
  | loop token c b =>
    simp only [Node.parts, List.mem_cons, Prod.mk.injEq, List.not_mem_nil, or_false] at h
    rcases h with ⟨-, rfl⟩ | ⟨-, rfl⟩
    · exact ⟨.tested token b, rfl⟩
    · exact ⟨.body token c, rfl⟩
  | ident token name => cases h
  | int token value => cases h
  | binary token l operator r =>
    simp only [Node.parts, List.mem_cons, Prod.mk.injEq, List.not_mem_nil, or_false] at h
    rcases h with ⟨-, rfl⟩ | ⟨-, rfl⟩
    · exact ⟨.left token operator r, rfl⟩
    · exact ⟨.right token l operator, rfl⟩
  | unary token operator r =>
    obtain rfl := (Prod.mk.inj (List.mem_singleton.1 h)).2
    exact ⟨.operand token operator, rfl⟩

/-- Wherever a node stands in a tree, the tree is made of it and of frames. -/
theorem exists_plug_of_within {t n : Node} {p : Place} (h : Within t p n) : ∃ frames, plug n frames = t := by
  induction h with
  | part hpart =>
    obtain ⟨frame, rfl⟩ := exists_fill_of_part hpart
    exact ⟨[frame], rfl⟩
  | deeper hpart _ ih =>
    obtain ⟨frame, rfl⟩ := exists_fill_of_part hpart
    obtain ⟨frames, rfl⟩ := ih
    exact ⟨frame :: frames, rfl⟩

/-! ## Nodes that can stand for each other -/

def Event.asTest : Event → Event
  | .chosen condition => .tested condition
  | e => e

/-- The kind of a node, with a choice taken for a loop. -/
def loopKind (kind : String) : String := if kind = "IfExpression" then "WhileExpression" else kind

theorem loopKind_choice : loopKind "WhileExpression" = loopKind "IfExpression" := by decide

def Fault.asLoop : Fault → Fault
  | .nameless kind => .nameless (loopKind kind)
  | .noKey kind => .noKey (loopKind kind)
  | .nonText e => .nonText e

/-- Pairs of states with the same store, and pairs of states and of faults that tell the same but for what is a choice
and what is a loop. -/
def Coupling.retold : Coupling where
  states s s' := s.store = s'.store ∧ s.log.map Event.asTest = s'.log.map Event.asTest
  faults e e' := e.asLoop = e'.asLoop
  names := Set.univ
  agree h x _ := by rw [h.1]
  told h e := ⟨h.1, by rw [List.map_cons, List.map_cons, h.2]⟩
  assigned h x v := ⟨by rw [h.1], h.2⟩
  same _ := rfl

/-- Two nodes that can stand for each other: they mean the same, and an assignment makes the same of them as its
target, up to `Coupling.retold`. Their kinds show only in the fault of an assignment to an assignment to one of
them. -/
structure Interchangeable (level : Int) (n m : Node) : Prop where
  meaning : Coupling.retold.Coupled (meaning level n) (meaning level m)
  target : Coupling.retold.Coupled (target n) (target m)
  missing : n.isMissing = m.isMissing
  kind : loopKind n.kind = loopKind m.kind

namespace Interchangeable

variable {level : Int} {n m : Node}

theorem meaning_refl (level : Int) (n : Node) :
    Coupling.retold.Coupled (LineLang.meaning level n) (LineLang.meaning level n) :=
  Coupling.retold.coupled_meaning level n fun _ _ => trivial

theorem forall₂ (h : Interchangeable level n m) (before after : List Node) :
    List.Forall₂ (fun s s' => Coupling.retold.Coupled (LineLang.meaning level s) (LineLang.meaning level s'))
      (before ++ n :: after) (before ++ m :: after) :=
  List.rel_append (List.forall₂_same.2 fun s _ => meaning_refl level s)
    (.cons h.meaning (List.forall₂_same.2 fun s _ => meaning_refl level s))

/-- What an assignment makes of another one as its target depends on whether that one has a target itself. -/
theorem target_assign (x v : Node) (t : Token) :
    Eval.target (.assign t x v) = if x.isMissing then pure .null else throw (.noKey x.kind) := by
  cases x <;> rfl

theorem fill (h : Interchangeable level n m) (frame : Frame) : Interchangeable level (frame.fill n) (frame.fill m) := by
  have same := meaning_refl level
  cases frame with
  | root before after => exact ⟨.meaning_root (h.forall₂ before after), .throw rfl, rfl, rfl⟩
  | target t v =>
    refine ⟨.meaning_assign (same v) h.target, ?_, rfl, rfl⟩
    simp only [Frame.fill, target_assign, h.missing]
    exact .ite (.pure _) (.throw (congrArg Fault.noKey h.kind))
  | assigned t x =>
    refine ⟨.meaning_assign h.meaning (.target x), ?_, rfl, rfl⟩
    simp only [Frame.fill, target_assign]
    exact .ite (.pure _) (.throw rfl)
  | print t => exact ⟨.meaning_print h.meaning, .throw rfl, rfl, rfl⟩
  | expr t => exact ⟨.meaning_expr h.meaning, .throw rfl, rfl, rfl⟩
  | block t before after => exact ⟨.meaning_block (h.forall₂ before after), .throw rfl, rfl, rfl⟩
  | chosen t y no => exact ⟨.meaning_cond h.meaning (same y) (same no), .throw rfl, rfl, rfl⟩
  | yes t c no => exact ⟨.meaning_cond (same c) h.meaning (same no), .throw rfl, rfl, rfl⟩
  | no t c y => exact ⟨.meaning_cond (same c) (same y) h.meaning, .throw rfl, rfl, rfl⟩
  | tested t b => exact ⟨.meaning_loop h.meaning (same b), .throw rfl, rfl, rfl⟩
  | body t c => exact ⟨.meaning_loop (same c) h.meaning, .throw rfl, rfl, rfl⟩
  | left t o r => exact ⟨.meaning_binary h.meaning (same r) o, .throw rfl, rfl, rfl⟩
  | right t l o => exact ⟨.meaning_binary (same l) h.meaning o, .throw rfl, rfl, rfl⟩
  | operand t o => exact ⟨.meaning_unary o n m, .throw rfl, rfl, rfl⟩

theorem plug (h : Interchangeable level n m) : ∀ frames, Interchangeable level (plug n frames) (plug m frames)
  | [] => h
  | frame :: frames => (h.plug frames).fill frame

end Interchangeable

/-! ## A loop and the choice made of it -/

/-- A loop and a choice tell of a condition at the same level. -/
theorem Coupling.retold_tell (level : Int) (c : Value) :
    Coupling.retold.Coupled (tell level (.tested c)) (tell level (.chosen c)) := by
  intro s s' hs
  refine .some (.ok () ?_)
  by_cases h : (Event.tested c).level ≤ level
  · have h' : (Event.chosen c).level ≤ level := h
    simp only [if_pos h, if_pos h']
    exact ⟨hs.1, congrArg (Event.tested c :: ·) hs.2⟩
  · have h' : ¬ (Event.chosen c).level ≤ level := h
    simpa only [if_neg h, if_neg h'] using hs

theorem interchangeable_unrolled (level : Int) (t t₁ t₂ t₃ t₄ : Token) (condition : Node) (body : List Node) :
    Interchangeable level (.loop t condition (.block t₁ body)) (.cond t₂ condition
      (.block t₃ (body ++ [.expr t₄ (.loop t condition (.block t₁ body))])) .missing) where
  meaning := by
    have same := Interchangeable.meaning_refl level
    rw [meaning_loop, meaning_cond, meaning_block level t₃, block_append, block_singleton, meaning_expr,
      meaning_missing, ← meaning_block level t₁]
    refine .bind (same condition) fun c => .bind (Coupling.retold_tell level c) fun _ => .ite ?_ (.pure _)
    exact .bind (same _) fun v => .ite (same _) (.pure v)
  target := .throw (congrArg Fault.nameless loopKind_choice)
  missing := rfl
  kind := loopKind_choice

/-- A loop and the choice on its condition whose block is that of the loop with the loop itself behind it can be
exchanged wherever the loop stands in a tree, and every place in a tree can be written with frames. From each state both
trees end or neither does. They end with the same value, or with the same fault but for the kind it names, in the same
store, and having told the same events but for whether a condition is that of a choice or of a loop. -/
theorem ends_unrolled (level : Int) (t t₁ t₂ t₃ t₄ : Token) (condition : Node) (body : List Node) :
    let loop : Node := .loop t condition (.block t₁ body)
    let once : Node := .cond t₂ condition (.block t₃ (body ++ [.expr t₄ loop])) .missing
    (∀ (frames : List Frame) (s : State),
      ((∃ o u, Ends level (plug loop frames) s o u) ↔ ∃ o u, Ends level (plug once frames) s o u) ∧
      ∀ o u o' u', Ends level (plug loop frames) s o u → Ends level (plug once frames) s o' u' →
        o.mapError Fault.asLoop = o'.mapError Fault.asLoop ∧ u.store = u'.store ∧
        u.log.map Event.asTest = u'.log.map Event.asTest) ∧
    ∀ (tree : Node) (p : Place), Within tree p loop → ∃ frames, plug loop frames = tree := by
  intro loop once
  refine ⟨fun frames s => ?_, fun tree p h => exists_plug_of_within h⟩
  have h := (interchangeable_unrolled level t t₁ t₂ t₃ t₄ condition body).plug frames
  have hs : Coupling.retold.states s s := ⟨rfl, rfl⟩
  obtain ⟨hiff, hends⟩ := h.meaning.ends hs
  refine ⟨hiff, fun o u o' u' hu hu' => ?_⟩
  cases hends o u o' u' hu hu' with
  | ok v h => exact ⟨rfl, h⟩
  | error he h => exact ⟨congrArg Except.error he, h⟩

/-- A condition that counts a name up and compares it. -/
def countUp : Node :=
  let token : Token := Lexeme.eof.token
  let i : Node := .ident token (.str "i")
  let sum : Node := .binary token i (.str "+") (.int token 1)
  .block token [.assign token i sum, .expr token (.binary token i (.str "<") (.int token 3))]

/-- An assignment that copies one name to another. -/
def copyCount : Node :=
  let token : Token := Lexeme.eof.token
  .assign token (.ident token (.str "k")) (.ident token (.str "i"))

/-- A program that sets a name to what the given tree yields, and prints another one. -/
def setAndPrint (n : Node) : Node :=
  let token : Token := Lexeme.eof.token
  .root [.assign token (.ident token (.str "x")) n, .print token (.ident token (.str "k"))]

/-- The loop is the value of an assignment, and its condition changes the store. -/
theorem ends_unrolled_countUp :
    let token : Token := Lexeme.eof.token
    let loop : Node := .loop token countUp (.block token [copyCount])
    let once : Node := .cond token countUp (.block token [copyCount, .expr token loop]) .missing
    let s : State := { store := ⟨[(.str "i", .int 0)]⟩ }
    let u : State :=
      { store := ⟨[(.str "i", .int 3), (.str "k", .int 2), (.str "x", .missing)]⟩
        log := [.assigned (.str "x") .missing, .tested (.int 0), .assigned (.str "i") (.int 3),
          .assigned (.str "k") (.int 2), .tested (.int 1), .assigned (.str "i") (.int 2),
          .assigned (.str "k") (.int 1), .tested (.int 1), .assigned (.str "i") (.int 1)] }
    Within (setAndPrint loop) .value loop ∧ (∃ frames, plug loop frames = setAndPrint loop) ∧
    Ends 3 (setAndPrint loop) s (.ok (.printed (.int 2))) u ∧
    ∃ o u', Ends 3 (setAndPrint once) s o u' ∧ o.mapError Fault.asLoop = .ok (.printed (.int 2)) ∧
      u'.store = u.store ∧ u'.log.map Event.asTest = u.log := by
  intro token loop once s u
  have hwithin : Within (setAndPrint loop) .value loop :=
    .deeper List.mem_cons_self (.part (.tail _ List.mem_cons_self))
  have hloop : Ends 3 (setAndPrint (.loop token countUp (.block token [copyCount]))) s (.ok (.printed (.int 2))) u :=
    ⟨12, by cbv⟩
  obtain ⟨hrun, hplaces⟩ := ends_unrolled 3 token token token token token countUp [copyCount]
  obtain ⟨hiff, hends⟩ := hrun [.root [] [.print token (.ident token (.str "k"))],
    .assigned token (.ident token (.str "x"))] s
  obtain ⟨o, u', honce⟩ := hiff.1 ⟨_, _, hloop⟩
  obtain ⟨ho, hstore, hlog⟩ := hends _ _ _ _ hloop honce
  exact ⟨hwithin, hplaces _ _ hwithin, hloop, o, u', honce, ho.symm, hstore.symm, hlog.symm⟩

end LineLang
