import LineLang.Proofs.Evaluation

/-!
# What a tree means

Evaluation takes fuel, and any fuel that is enough gives the same answer. So a tree stands for one computation without
fuel, and that computation is made of those of its parts.

* `Eval.IsLimit f m` : the computation `m` is what the computations `f 0`, `f 1`, ... come to. There is one rule for
  each way to put computations together;
* `meaning level n` : evaluation of `n` with as much fuel as it takes; `ends_iff_meaning` ties it to `Ends`;
* `meaning_root`, `meaning_assign`, ... : one equation for each kind of node;
* `Eval.round`, `Eval.rounds`, `isLimit_rounds` : a loop is what its first rounds come to, so that the meaning of a loop
  depends on the meanings of its parts only, `meaning_loop_congr`.
-/

namespace LineLang

namespace Eval

variable {α β : Type}

theorem Extends.antisymm {m m' : Eval α} (h : Extends m m') (h' : Extends m' m) : m = m' := by
  funext s
  exact Option.ext fun r => ⟨h s r, h' s r⟩

/-! ## Limits -/

/-- The computations `f 0`, `f 1`, ... answer more and more often, and `m` answers as soon as one of them does. -/
structure IsLimit (f : Nat → Eval α) (m : Eval α) : Prop where
  rising : ∀ k, Extends (f k) (f (k + 1))
  below : ∀ k, Extends (f k) m
  reached : ∀ s r, m.run.run s = some r → ∃ k, (f k).run.run s = some r

open Classical in
/-- What the computations of a sequence come to. -/
noncomputable def limit (f : Nat → Eval α) : Eval α := fun s =>
  if h : ∃ r k, (f k).run.run s = some r then some h.choose else none

theorem rising_le {f : Nat → Eval α} (h : ∀ k, Extends (f k) (f (k + 1))) {i j : Nat} (hij : i ≤ j) :
    Extends (f i) (f j) := by
  induction hij with
  | refl => exact .refl _
  | step _ ih => exact ih.trans (h _)

theorem isLimit_limit {f : Nat → Eval α} (h : ∀ k, Extends (f k) (f (k + 1))) : IsLimit f (limit f) where
  rising := h
  below := by
    intro k s r hr
    have hex : ∃ r k, (f k).run.run s = some r := ⟨r, k, hr⟩
    obtain ⟨j, hj⟩ := hex.choose_spec
    -- with the larger of both numbers the two answers are the same
    have hk := rising_le h (Nat.le_max_left k j) s r hr
    rw [rising_le h (Nat.le_max_right k j) s _ hj] at hk
    exact (dif_pos hex).trans hk
  reached := by
    intro s r hr
    by_cases hex : ∃ r k, (f k).run.run s = some r
    · obtain rfl := Option.some.inj ((dif_pos hex).symm.trans hr)
      exact hex.choose_spec
    · cases (dif_neg hex).symm.trans hr

namespace IsLimit

variable {f g : Nat → Eval α} {m m' : Eval α} {run : Nat → Node → Eval Value} {run' : Node → Eval Value}

theorem unique (h : IsLimit f m) (h' : IsLimit f m') : m = m' := by
  refine Extends.antisymm (fun s r hr => ?_) fun s r hr => ?_
  · obtain ⟨k, hk⟩ := h.reached s r hr
    exact h'.below k s r hk
  · obtain ⟨k, hk⟩ := h'.reached s r hr
    exact h.below k s r hk

theorem const (m : Eval α) : IsLimit (fun _ => m) m where
  rising _ := .refl m
  below _ := .refl m
  reached _ _ hr := ⟨0, hr⟩

theorem tail (h : IsLimit f m) : IsLimit (fun k => f (k + 1)) m where
  rising k := h.rising (k + 1)
  below k := h.below (k + 1)
  reached s r hr := by
    obtain ⟨k, hk⟩ := h.reached s r hr
    exact ⟨k, h.rising k s r hk⟩

theorem bind {next : α → Nat → Eval β} {next' : α → Eval β} (hm : IsLimit f m)
    (hn : ∀ a, IsLimit (next a) (next' a)) : IsLimit (fun k => f k >>= fun a => next a k) (m >>= next') where
  rising k := .bind (hm.rising k) fun a => (hn a).rising k
  below k := .bind (hm.below k) fun a => (hn a).below k
  reached s r hr := by
    rw [run_bind] at hr
    cases h : m.run.run s with
    | none =>
      rw [h] at hr
      cases hr
    | some q =>
      obtain ⟨o, t⟩ := q
      obtain ⟨i, hi⟩ := hm.reached s _ h
      rw [h] at hr
      cases o with
      | error e => exact ⟨i, by rw [run_bind, hi]; exact hr⟩
      | ok a =>
        obtain ⟨j, hj⟩ := (hn a).reached t r hr
        refine ⟨max i j, ?_⟩
        rw [run_bind, rising_le hm.rising (Nat.le_max_left i j) s _ hi]
        exact rising_le (hn a).rising (Nat.le_max_right i j) t r hj

theorem ite {p : Prop} [Decidable p] (h : IsLimit f m) (h' : IsLimit g m') :
    IsLimit (fun k => if p then f k else g k) (if p then m else m') := by
  by_cases hp : p
  · simpa only [if_pos hp] using h
  · simpa only [if_neg hp] using h'

theorem program (h : ∀ n, IsLimit (fun k => run k n) (run' n)) (ns : List Node) (last : Value) :
    IsLimit (fun k => program (run k) last ns) (program run' last ns) := by
  induction ns generalizing last with
  | nil => exact const (pure last)
  | cons n ns ih => exact bind (h n) fun _ => ih _

theorem block (h : ∀ n, IsLimit (fun k => run k n) (run' n)) (ns : List Node) :
    IsLimit (fun k => block (run k) ns) (block run' ns) := by
  induction ns with
  | nil => exact const (pure Value.missing)
  | cons n ns ih => exact bind (h n) fun v => ite ih (const (pure v))

end IsLimit

/-! ## Lists of statements -/

section Statements

variable {run run' : Node → Eval Value}

theorem program_map {f : Node → Node} {ns : List Node} (h : ∀ n ∈ ns, run (f n) = run' n) (last : Value) :
    program run last (ns.map f) = program run' last ns := by
  induction ns generalizing last with
  | nil => rfl
  | cons n ns ih =>
    obtain ⟨hn, hns⟩ := List.forall_mem_cons.1 h
    simp only [List.map_cons, program, hn, ih hns]

theorem block_map {f : Node → Node} {ns : List Node} (h : ∀ n ∈ ns, run (f n) = run' n) :
    block run (ns.map f) = block run' ns := by
  induction ns with
  | nil => rfl
  | cons n ns ih =>
    obtain ⟨hn, hns⟩ := List.forall_mem_cons.1 h
    simp only [List.map_cons, block, hn, ih hns]

theorem program_solid (h : ∀ n : Node, n.isBlank = true → run n = pure .missing) (ns : List Node) (last : Value) :
    program run last (Node.solid ns) = program run last ns := by
  induction ns generalizing last with
  | nil => rfl
  | cons n ns ih =>
    rw [Node.solid_cons]
    split
    · next hn => rw [program, h n hn, pure_bind, ih, Value.isMissing, if_pos rfl]
    · simp only [program, ih]

theorem block_solid (h : ∀ n : Node, n.isBlank = true → run n = pure .missing) (ns : List Node) :
    block run (Node.solid ns) = block run ns := by
  induction ns with
  | nil => rfl
  | cons n ns ih =>
    rw [Node.solid_cons]
    split
    · next hn => rw [block, h n hn, pure_bind, ih, Value.isMissing, if_pos rfl]
    · simp only [block, ih]

theorem block_append (ns ms : List Node) :
    block run (ns ++ ms) = block run ns >>= fun v => if v.isMissing then block run ms else pure v := by
  induction ns with
  | nil => rw [List.nil_append, block, pure_bind, Value.isMissing, if_pos rfl]
  | cons n ns ih =>
    rw [List.cons_append, block, block, bind_assoc]
    congr 1
    funext v
    cases v with
    | missing => exact ih
    | int a => exact (pure_bind _ _).symm
    | printed w => exact (pure_bind _ _).symm

theorem block_singleton (n : Node) : block run [n] = run n := by
  have h : (fun v : Value => if v.isMissing then block run [] else pure v) = pure := by
    funext v
    cases v <;> rfl
  rw [block, h, bind_pure]

end Statements

/-! ## Rounds of a loop -/

/-- One round of a loop, and then `rest` if neither the condition nor the body ends the loop. -/
def round (level : Int) (condition body rest : Eval Value) : Eval Value := do
  let c ← condition
  tell level (.tested c)
  if c.isTrue then
    let v ← body
    if v.isMissing then rest else pure v
  else pure .missing

/-- A loop that goes round less than the given number of times. -/
def rounds (level : Int) (condition body : Eval Value) : Nat → Eval Value
  | 0 => unfinished
  | k + 1 => round level condition body (rounds level condition body k)

theorem Extends.round {level : Int} {c c' b b' rest rest' : Eval Value} (hc : Extends c c') (hb : Extends b b')
    (hr : Extends rest rest') : Extends (round level c b rest) (round level c' b' rest') := by
  refine .bind hc fun v => .bind (.refl _) fun _ => ?_
  split
  · refine .bind hb fun w => ?_
    split
    · exact hr
    · exact .refl _
  · exact .refl _

end Eval

open Eval

/-! ## Meanings -/

noncomputable def meaning (level : Int) (n : Node) : Eval Value := limit fun k => eval level k n

section Meaning

variable (level : Int)

theorem isLimit_eval (n : Node) : IsLimit (fun k => eval level k n) (meaning level n) :=
  isLimit_limit fun k => eval_extends_succ level k n

theorem ends_iff_meaning {level : Int} {n : Node} {s s' : State} {o : Except Fault Value} :
    Ends level n s o s' ↔ (meaning level n).run.run s = some (o, s') := by
  constructor
  · rintro ⟨k, hk⟩
    exact (isLimit_eval level n).below k s _ hk
  · exact (isLimit_eval level n).reached s _

theorem meaning_missing : meaning level .missing = pure .missing :=
  (isLimit_eval level .missing).tail.unique (.const _)

theorem meaning_root (ss : List Node) : meaning level (.root ss) = program (meaning level) .missing ss :=
  (isLimit_eval level (.root ss)).tail.unique (.program (isLimit_eval level) ss .missing)

theorem meaning_assign (t : Token) (name value : Node) :
    meaning level (.assign t name value) = do
      let v ← meaning level value
      let key ← target name
      assign level key v
      return .missing :=
  (isLimit_eval level (.assign t name value)).tail.unique (.bind (isLimit_eval level value) fun _ => .const _)

theorem meaning_print (t : Token) (value : Node) :
    meaning level (.print t value) = do
      let v ← meaning level value
      return .printed v :=
  (isLimit_eval level (.print t value)).tail.unique (.bind (isLimit_eval level value) fun _ => .const _)

theorem meaning_expr (t : Token) (e : Node) : meaning level (.expr t e) = meaning level e :=
  (isLimit_eval level (.expr t e)).tail.unique (isLimit_eval level e)

theorem meaning_block (t : Token) (ss : List Node) : meaning level (.block t ss) = block (meaning level) ss :=
  (isLimit_eval level (.block t ss)).tail.unique (.block (isLimit_eval level) ss)

theorem meaning_cond (t : Token) (condition yes no : Node) :
    meaning level (.cond t condition yes no) = (do
      let c ← meaning level condition
      tell level (.chosen c)
      if c.isTrue then meaning level yes else meaning level no) :=
  (isLimit_eval level (.cond t condition yes no)).tail.unique (.bind (isLimit_eval level condition) fun _ =>
    .bind (.const _) fun _ => .ite (isLimit_eval level yes) (isLimit_eval level no))

theorem meaning_loop (t : Token) (condition body : Node) :
    meaning level (.loop t condition body) =
      round level (meaning level condition) (meaning level body) (meaning level (.loop t condition body)) :=
  (isLimit_eval level (.loop t condition body)).tail.unique (.bind (isLimit_eval level condition) fun _ =>
    .bind (.const _) fun _ => .ite (.bind (isLimit_eval level body) fun _ =>
      .ite (isLimit_eval level (.loop t condition body)) (.const _)) (.const _))

theorem meaning_ident (t : Token) (name : Json) : meaning level (.ident t name) = lookup name :=
  (isLimit_eval level (.ident t name)).tail.unique (.const _)

theorem meaning_int (t : Token) (value : Int) : meaning level (.int t value) = pure (.ofInt value) :=
  (isLimit_eval level (.int t value)).tail.unique (.const _)

theorem meaning_binary (t : Token) (left : Node) (operator : Json) (right : Node) :
    meaning level (.binary t left operator right) = do
      let a ← meaning level left
      let b ← meaning level right
      return operate operator a b :=
  (isLimit_eval level (.binary t left operator right)).tail.unique (.bind (isLimit_eval level left) fun _ =>
    .bind (isLimit_eval level right) fun _ => .const _)

theorem meaning_unary (t : Token) (operator : Json) (right : Node) :
    meaning level (.unary t operator right) = pure .missing :=
  (isLimit_eval level (.unary t operator right)).tail.unique (.const _)

theorem meaning_blank {n : Node} (h : n.isBlank = true) : meaning level n = pure .missing := by
  obtain ⟨t, rfl⟩ := Node.exists_of_isBlank h
  rw [meaning_expr, meaning_missing]

/-! ## Loops -/

/-- A loop is what its first rounds come to. -/
theorem isLimit_rounds (t : Token) (condition body : Node) :
    IsLimit (rounds level (meaning level condition) (meaning level body)) (meaning level (.loop t condition body)) where
  rising k := by
    induction k with
    | zero => exact .unfinished
    | succ k ih => exact .round (.refl _) (.refl _) ih
  below k := by
    induction k with
    | zero => exact .unfinished
    | succ k ih =>
      rw [meaning_loop]
      exact .round (.refl _) (.refl _) ih
  reached s r hr := by
    -- each round of the loop takes one more unit of fuel
    have hk : ∀ k, Extends (eval level k (.loop t condition body))
        (rounds level (meaning level condition) (meaning level body) k) := by
      intro k
      induction k with
      | zero => exact .unfinished
      | succ k ih => exact .round ((isLimit_eval level condition).below k) ((isLimit_eval level body).below k) ih
    obtain ⟨k, h⟩ := (isLimit_eval level _).reached s r hr
    exact ⟨k, hk k s r h⟩

theorem meaning_loop_congr {c c' b b' : Node} (hc : meaning level c = meaning level c')
    (hb : meaning level b = meaning level b') (t t' : Token) :
    meaning level (.loop t c b) = meaning level (.loop t' c' b') := by
  have h := isLimit_rounds level t c b
  rw [hc, hb] at h
  exact h.unique (isLimit_rounds level t' c' b')

end Meaning

end LineLang
