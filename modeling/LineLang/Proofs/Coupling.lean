import LineLang.Proofs.Meaning
import LineLang.Proofs.Parts
import Mathlib.Data.List.Forall2
import Mathlib.Data.Set.Defs

/-!
# Two evaluations side by side

Two evaluations go on alike as long as the states they have reached are alike in all that evaluation looks at. What that
is can be said in more than one way, and the steps that keep it are the same each time.

* `Store.value` : the value of a name, where a name that has not been set counts as missing;
* `Coupling` : pairs of states, and pairs of faults, that the operations of the evaluator keep;
* `Coupling.Coupled m m'` : from paired states `m` and `m'` both answer or neither does, with the same result and again
  in paired states. There is one rule for each operation of the evaluator and one for each kind of node;
* `Coupling.Coupled.ends` : what that says of ends;
* `Node.reads`, `Coupling.coupled_meaning` : a tree looks at the names that it reads and at nothing else;
* `ends_agree_on_reads` : so evaluation from stores that differ elsewhere goes on alike.
-/

namespace LineLang

open Eval

/-! ## Values of names -/

namespace Store

def value (s : Store) (name : Json) : Value := (s.get? name).getD .missing

@[simp] theorem value_set_self (s : Store) (name : Json) (v : Value) : (s.set name v).value name = v := by
  rw [value, get?_set_self, Option.getD_some]

theorem value_set_other (s : Store) {name other : Json} (h : other ≠ name) (v : Value) :
    (s.set name v).value other = s.value other := by
  rw [value, get?_set_other s h, value]

end Store

/-! ## Couplings -/

/-- Pairs of states that agree on the values of some names and stay paired when both are changed in the same way; and
pairs of faults. -/
structure Coupling where
  states : State → State → Prop
  faults : Fault → Fault → Prop
  /-- The names that have the same value in paired states. -/
  names : Set Json
  agree : ∀ {s s'}, states s s' → ∀ x ∈ names, s.store.value x = s'.store.value x
  told : ∀ {s s'}, states s s' → ∀ e, states { s with log := e :: s.log } { s' with log := e :: s'.log }
  assigned : ∀ {s s'}, states s s' → ∀ x v,
    states { s with store := s.store.set x v } { s' with store := s'.store.set x v }
  same : ∀ e, faults e e

namespace Coupling

variable {α β : Type} (K : Coupling)

/-- Two answers agree: the same result, or paired faults, in paired states. -/
inductive Agree : Except Fault α × State → Except Fault α × State → Prop where
  | ok (a : α) {s s' : State} (h : K.states s s') : Agree (.ok a, s) (.ok a, s')
  | error {e e' : Fault} (he : K.faults e e') {s s' : State} (h : K.states s s') : Agree (.error e, s) (.error e', s')

def Coupled (m m' : Eval α) : Prop :=
  ∀ s s', K.states s s' → Option.Rel K.Agree (m.run.run s) (m'.run.run s')

variable {K}

namespace Coupled

/-! ### Operations of the evaluator -/

theorem pure (a : α) : K.Coupled (pure a) (pure a) := fun _ _ h => .some (.ok a h)

theorem throw {e e' : Fault} (he : K.faults e e') : K.Coupled (throw e : Eval α) (throw e') :=
  fun _ _ h => .some (.error he h)

theorem unfinished : K.Coupled (unfinished : Eval α) unfinished := fun _ _ _ => .none

theorem bind {m m' : Eval α} {f f' : α → Eval β} (hm : K.Coupled m m') (hf : ∀ a, K.Coupled (f a) (f' a)) :
    K.Coupled (m >>= f) (m' >>= f') := by
  intro s s' hs
  have h := hm s s' hs
  rw [run_bind, run_bind]
  generalize m.run.run s = r, m'.run.run s' = r' at h
  cases h with
  | none => exact .none
  | some h =>
    cases h with
    | ok a h => exact hf a _ _ h
    | error he h => exact .some (.error he h)

theorem ite {p : Prop} [Decidable p] {m m' n n' : Eval α} (hm : K.Coupled m m') (hn : K.Coupled n n') :
    K.Coupled (if p then m else n) (if p then m' else n') := by
  split
  · exact hm
  · exact hn

theorem tell (level : Int) (e : Event) : K.Coupled (tell level e) (tell level e) := by
  intro s s' hs
  refine .some (.ok () ?_)
  by_cases h : e.level ≤ level
  · simpa only [if_pos h] using K.told hs e
  · simpa only [if_neg h] using hs

theorem keyOf (name : Json) : K.Coupled (keyOf name) (keyOf name) := by
  cases name with
  | arr items => exact throw (K.same _)
  | obj fields => exact throw (K.same _)
  | _ => exact pure _

theorem lookup {name : Json} (h : name ∈ K.names) : K.Coupled (lookup name) (lookup name) := by
  have hget : K.Coupled (do return (← get).store.value name) (do return (← get).store.value name) := by
    intro s s' hs
    show Option.Rel K.Agree (some (.ok (s.store.value name), s)) (some (.ok (s'.store.value name), s'))
    rw [K.agree hs name h]
    exact .some (.ok _ hs)
  cases name with
  | arr items => exact throw (K.same _)
  | obj fields => exact throw (K.same _)
  | _ => exact hget

theorem target (n : Node) : K.Coupled (target n) (target n) := by
  unfold Eval.target
  split
  · exact keyOf _
  · exact pure _
  · exact throw (K.same _)
  · exact throw (K.same _)

theorem assign (level : Int) (name : Json) (v : Value) : K.Coupled (assign level name v) (assign level name v) :=
  bind (fun _ _ hs => .some (.ok () (K.assigned hs name v))) fun _ => tell level _

theorem program {run run' : Node → Eval Value} {ns ns' : List Node}
    (h : List.Forall₂ (fun n n' => K.Coupled (run n) (run' n')) ns ns') (last : Value) :
    K.Coupled (program run last ns) (program run' last ns') := by
  induction h generalizing last with
  | nil => exact pure last
  | cons hn _ ih => exact bind hn fun v => ih _

theorem block {run run' : Node → Eval Value} {ns ns' : List Node}
    (h : List.Forall₂ (fun n n' => K.Coupled (run n) (run' n')) ns ns') :
    K.Coupled (block run ns) (block run' ns') := by
  induction h with
  | nil => exact pure Value.missing
  | cons hn _ ih => exact bind hn fun v => ite ih (pure v)

/-- Rounds of a loop go on alike for as long as they last. -/
theorem rounds {level : Int} {c c' b b' : Eval Value} (hc : K.Coupled c c') (hb : K.Coupled b b') (k : Nat) :
    K.Coupled (rounds level c b k) (rounds level c' b' k) := by
  induction k with
  | zero => exact unfinished
  | succ k ih =>
    refine bind hc fun v => bind (tell level _) fun _ => ite ?_ (pure _)
    exact bind hb fun w => ite ih (pure w)

theorem limit {f f' : Nat → Eval α} {m m' : Eval α} (hf : IsLimit f m) (hf' : IsLimit f' m')
    (h : ∀ k, K.Coupled (f k) (f' k)) : K.Coupled m m' := by
  intro s s' hs
  -- the two sequences begin to answer with the same number, and the limits answer as they do
  have hsome : ∀ k, ((f k).run.run s).isSome = ((f' k).run.run s').isSome := by
    intro k
    have hk := h k s s' hs
    generalize (f k).run.run s = r, (f' k).run.run s' = r' at hk
    cases hk with
    | none => rfl
    | some _ => rfl
  by_cases hex : ∃ k, ((f k).run.run s).isSome = true
  · obtain ⟨k, hr⟩ := hex
    obtain ⟨r', hr'⟩ := Option.isSome_iff_exists.1 ((hsome k).symm.trans hr)
    obtain ⟨r, hr⟩ := Option.isSome_iff_exists.1 hr
    have hk := h k s s' hs
    rw [hr, hr'] at hk
    rwa [hf.below k s r hr, hf'.below k s' r' hr']
  · have hm : m.run.run s = none := by
      refine Option.eq_none_iff_forall_ne_some.2 fun r hr => hex ?_
      obtain ⟨k, hk⟩ := hf.reached s r hr
      exact ⟨k, by rw [hk, Option.isSome_some]⟩
    have hm' : m'.run.run s' = none := by
      refine Option.eq_none_iff_forall_ne_some.2 fun r hr => hex ?_
      obtain ⟨k, hk⟩ := hf'.reached s' r hr
      exact ⟨k, by rw [hsome k, hk, Option.isSome_some]⟩
    rw [hm, hm']
    exact .none

/-! ### Kinds of nodes -/

section Nodes

variable {level : Int} {t t' : Token} {x x' v v' c c' y y' n n' l l' r r' : Node} {ss ss' : List Node}

theorem meaning_root (h : List.Forall₂ (fun s s' => K.Coupled (meaning level s) (meaning level s')) ss ss') :
    K.Coupled (meaning level (.root ss)) (meaning level (.root ss')) := by
  rw [LineLang.meaning_root, LineLang.meaning_root]
  exact program h .missing

theorem meaning_assign (hv : K.Coupled (meaning level v) (meaning level v'))
    (hx : K.Coupled (Eval.target x) (Eval.target x')) :
    K.Coupled (meaning level (.assign t x v)) (meaning level (.assign t' x' v')) := by
  rw [LineLang.meaning_assign, LineLang.meaning_assign]
  exact bind hv fun w => bind hx fun key => bind (assign level key w) fun _ => pure _

theorem meaning_print (hv : K.Coupled (meaning level v) (meaning level v')) :
    K.Coupled (meaning level (.print t v)) (meaning level (.print t' v')) := by
  rw [LineLang.meaning_print, LineLang.meaning_print]
  exact bind hv fun w => pure _

theorem meaning_expr (hv : K.Coupled (meaning level v) (meaning level v')) :
    K.Coupled (meaning level (.expr t v)) (meaning level (.expr t' v')) := by
  rwa [LineLang.meaning_expr, LineLang.meaning_expr]

theorem meaning_block (h : List.Forall₂ (fun s s' => K.Coupled (meaning level s) (meaning level s')) ss ss') :
    K.Coupled (meaning level (.block t ss)) (meaning level (.block t' ss')) := by
  rw [LineLang.meaning_block, LineLang.meaning_block]
  exact block h

theorem meaning_cond (hc : K.Coupled (meaning level c) (meaning level c'))
    (hy : K.Coupled (meaning level y) (meaning level y')) (hn : K.Coupled (meaning level n) (meaning level n')) :
    K.Coupled (meaning level (.cond t c y n)) (meaning level (.cond t' c' y' n')) := by
  rw [LineLang.meaning_cond, LineLang.meaning_cond]
  exact bind hc fun w => bind (tell level _) fun _ => ite hy hn

theorem meaning_loop (hc : K.Coupled (meaning level c) (meaning level c'))
    (hy : K.Coupled (meaning level y) (meaning level y')) :
    K.Coupled (meaning level (.loop t c y)) (meaning level (.loop t' c' y')) :=
  limit (isLimit_rounds level t c y) (isLimit_rounds level t' c' y') (rounds hc hy)

theorem meaning_binary (hl : K.Coupled (meaning level l) (meaning level l'))
    (hr : K.Coupled (meaning level r) (meaning level r')) (operator : Json) :
    K.Coupled (meaning level (.binary t l operator r)) (meaning level (.binary t' l' operator r')) := by
  rw [LineLang.meaning_binary, LineLang.meaning_binary]
  exact bind hl fun a => bind hr fun b => pure _

theorem meaning_unary (operator : Json) (r r' : Node) :
    K.Coupled (meaning level (.unary t operator r)) (meaning level (.unary t' operator r')) := by
  rw [LineLang.meaning_unary, LineLang.meaning_unary]
  exact pure _

end Nodes

/-- From paired states two coupled trees both end or neither does, and their ends agree. -/
theorem ends {level : Int} {n m : Node} (h : K.Coupled (meaning level n) (meaning level m)) {s s' : State}
    (hs : K.states s s') :
    ((∃ o t, Ends level n s o t) ↔ ∃ o t, Ends level m s' o t) ∧
      ∀ o t o' t', Ends level n s o t → Ends level m s' o' t' → K.Agree (o, t) (o', t') := by
  simp only [ends_iff_meaning]
  have hrel := h s s' hs
  generalize (meaning level n).run.run s = r, (meaning level m).run.run s' = r' at hrel
  cases hrel with
  | none => exact ⟨Iff.rfl, fun _ _ _ _ h => nomatch h⟩
  | @some a b hab =>
    refine ⟨⟨fun _ => ⟨b.1, b.2, rfl⟩, fun _ => ⟨a.1, a.2, rfl⟩⟩, fun o t o' t' ha hb => ?_⟩
    obtain rfl := Option.some.inj ha
    obtain rfl := Option.some.inj hb
    exact hab

end Coupled

end Coupling

/-! ## Names that a tree reads -/

namespace Node

def reads (n : Node) : List Json := (n.nodes false).filterMap name?

end Node

/-- A tree goes on alike from states that agree on the names that it reads. -/
theorem Coupling.coupled_meaning (K : Coupling) (level : Int) (n : Node) (h : ∀ x ∈ n.reads, x ∈ K.names) :
    K.Coupled (meaning level n) (meaning level n) := by
  -- a part reads no names but those of the whole
  have part : ∀ {n p : Node}, (∀ x ∈ n.reads, x ∈ K.names) → p ∈ n.children false → ∀ x ∈ p.reads, x ∈ K.names :=
    fun h hp x hx => h x (Node.filterMap_nodes_subset hp hx)
  induction n using Node.treeInduction with
  | missing =>
    rw [meaning_missing]
    exact .pure _
  | root ss ih => exact .meaning_root (List.forall₂_same.2 fun s hs => ih s hs (part h (by simpa using hs)))
  | assign t x v _ ihv => exact .meaning_assign (ihv (part h List.mem_cons_self)) (.target x)
  | print t v ih => exact .meaning_print (ih (part h List.mem_cons_self))
  | expr t e ih => exact .meaning_expr (ih (part h List.mem_cons_self))
  | block t ss ih => exact .meaning_block (List.forall₂_same.2 fun s hs => ih s hs (part h (by simpa using hs)))
  | cond t c y n ihc ihy ihn =>
    refine .meaning_cond (ihc (part h ?_)) (ihy (part h ?_)) (ihn (part h ?_))
    all_goals simp [Node.children, Node.parts]
  | loop t c b ihc ihb =>
    refine .meaning_loop (ihc (part h ?_)) (ihb (part h ?_))
    all_goals simp [Node.children, Node.parts]
  | ident t x =>
    rw [meaning_ident]
    exact .lookup (h x List.mem_cons_self)
  | int t v =>
    rw [meaning_int]
    exact .pure _
  | binary t l o r ihl ihr =>
    refine .meaning_binary (ihl (part h ?_)) (ihr (part h ?_)) o
    all_goals simp [Node.children, Node.parts]
  | unary t o r _ => exact .meaning_unary o r r

/-- Pairs of states with the same events whose stores agree on the given names; any other name has the same value in
both or still has its value in `a` and in `b`. -/
def Coupling.agreeing (names : Set Json) (a b : Store) : Coupling where
  states s s' := s.log = s'.log ∧ (∀ x ∈ names, s.store.value x = s'.store.value x) ∧
    ∀ x ∉ names, s.store.value x = s'.store.value x ∨ s.store.value x = a.value x ∧ s'.store.value x = b.value x
  faults := Eq
  names := names
  agree h := h.2.1
  told h e := ⟨congrArg (e :: ·) h.1, h.2⟩
  assigned {s s'} h x v := by
    obtain ⟨hlog, hin, hout⟩ := h
    have hset : ∀ y, y = x ∧ (s.store.set x v).value y = (s'.store.set x v).value y ∨
        (s.store.set x v).value y = s.store.value y ∧ (s'.store.set x v).value y = s'.store.value y := by
      intro y
      by_cases hy : y = x
      · subst hy
        exact .inl ⟨rfl, by rw [Store.value_set_self, Store.value_set_self]⟩
      · exact .inr ⟨Store.value_set_other _ hy v, Store.value_set_other _ hy v⟩
    refine ⟨hlog, fun y hy => ?_, fun y hy => ?_⟩
    · rcases hset y with ⟨-, h⟩ | ⟨h, h'⟩
      · exact h
      · exact (h.trans (hin y hy)).trans h'.symm
    · rcases hset y with ⟨-, h⟩ | ⟨h, h'⟩
      · exact .inl h
      · exact h ▸ h' ▸ hout y hy
  same _ := rfl

/-- A tree sees of a store only the values of the names that it reads, and a name that has not been set is to it the
same as one that is missing. From two stores that agree on a set of names with all of these in it, evaluation ends on
both or on neither, with the same outcome and the same events. The stores at the end agree on that set, and any other
name has the same value in both or has in each of them the value that it had at the start. -/
theorem ends_agree_on_reads {n : Node} {names : Set Json} (hn : ∀ x ∈ n.reads, x ∈ names) {a b : Store}
    (hab : ∀ x ∈ names, a.value x = b.value x) (level : Int) (log : List Event) :
    ((∃ o t, Ends level n ⟨a, log⟩ o t) ↔ ∃ o t, Ends level n ⟨b, log⟩ o t) ∧
    ∀ o t o' t', Ends level n ⟨a, log⟩ o t → Ends level n ⟨b, log⟩ o' t' →
      o = o' ∧ t.log = t'.log ∧ (∀ x ∈ names, t.store.value x = t'.store.value x) ∧
      ∀ x ∉ names, t.store.value x = t'.store.value x ∨
        t.store.value x = a.value x ∧ t'.store.value x = b.value x := by
  have hs : (Coupling.agreeing names a b).states ⟨a, log⟩ ⟨b, log⟩ := ⟨rfl, hab, fun x _ => .inr ⟨rfl, rfl⟩⟩
  obtain ⟨hiff, hends⟩ := ((Coupling.agreeing names a b).coupled_meaning level n hn).ends hs
  refine ⟨hiff, fun o t o' t' h h' => ?_⟩
  cases hends o t o' t' h h' with
  | ok v h => exact ⟨rfl, h⟩
  | error he h => exact ⟨congrArg Except.error he, h⟩

/-- A loop that counts one name up and copies another. -/
def countAndCopy : Node :=
  let token : Token := Lexeme.eof.token
  let use (x : String) : Node := .ident token (.str x)
  let sum : Node := .binary token (use "i") (.str "+") (.int token 1)
  let less : Node := .binary token (use "i") (.str "<") (.int token 1)
  .root [.loop token less (.block token [.assign token (use "i") sum, .assign token (use "k") (use "u")]),
    .print token (use "i")]

/-- The name `u` is unset in one store and missing in the other, and `z` has two values. -/
theorem ends_agree_on_reads_countAndCopy :
    let names : Set Json := {x | x ∈ [Json.str "i", Json.str "u"]}
    let a : Store := ⟨[(.str "z", .int 5), (.str "i", .int 0)]⟩
    let b : Store := ⟨[(.str "i", .int 0), (.str "u", .missing), (.str "z", .int 7)]⟩
    let log : List Event := [.tested (.int 0), .assigned (.str "k") .missing, .assigned (.str "i") (.int 1),
      .tested (.int 1)]
    let t : State := ⟨⟨[(.str "z", .int 5), (.str "i", .int 1), (.str "k", .missing)]⟩, log⟩
    (∀ x ∈ countAndCopy.reads, x ∈ names) ∧ (∀ x ∈ names, a.value x = b.value x) ∧
    Ends 3 countAndCopy ⟨a, []⟩ (.ok (.printed (.int 1))) t ∧
    ∃ t', Ends 3 countAndCopy ⟨b, []⟩ (.ok (.printed (.int 1))) t' ∧ t'.log = log ∧
      (∀ x ∈ names, t.store.value x = t'.store.value x) ∧
      (t.store.value (.str "z") = t'.store.value (.str "z") ∨ t'.store.value (.str "z") = .int 7) := by
  intro names a b log t
  have hn : ∀ x ∈ countAndCopy.reads, x ∈ names := by
    show ∀ x ∈ countAndCopy.reads, x ∈ [Json.str "i", Json.str "u"]
    decide
  have hab : ∀ x ∈ names, a.value x = b.value x := by
    show ∀ x ∈ [Json.str "i", Json.str "u"], a.value x = b.value x
    decide
  have ha : Ends 3 countAndCopy ⟨a, []⟩ (.ok (.printed (.int 1))) t := ⟨8, by cbv⟩
  have hz : Json.str "z" ∉ names := by
    show Json.str "z" ∉ [Json.str "i", Json.str "u"]
    decide
  obtain ⟨hiff, hends⟩ := ends_agree_on_reads hn hab 3 []
  obtain ⟨o, t', hb⟩ := hiff.1 ⟨_, _, ha⟩
  obtain ⟨rfl, hlog, hin, hout⟩ := hends _ _ _ _ ha hb
  exact ⟨hn, hab, ha, t', hb, hlog.symm, hin, (hout (.str "z") hz).imp_right And.right⟩

end LineLang
