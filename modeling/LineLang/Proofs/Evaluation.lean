import LineLang.Proofs.Pruning
import LineLang.Proofs.Range

/-!
# Evaluation without fuel

An answer does not depend on how much fuel there was for it. So evaluation ends, or does not end, and the rules for that
do not speak of fuel.

* `Eval.Extends m m'` : where `m` answers, `m'` gives the same answer. There is one rule for each way to put
  computations together;
* `eval_extends` : with more fuel, evaluation gives every answer that it gave with less;
* `Ends level n s o s'` : evaluating `n` from the state `s` ends with the outcome `o` and the state `s'`;
* `EndsAll level last ns s v s'` : so does evaluating the statements of a program, with the value `v`, after others with
  the value `last`;
* `endsAll_cons`, `endsAll_append`, `endsAll_solid` : one statement after the other, one list of them after the other,
  and lists that differ in blank statements;
* `ends_root_append` : one program after the other.
-/

namespace LineLang

namespace Eval

def Extends {α : Type} (m m' : Eval α) : Prop := ∀ s r, m.run.run s = some r → m'.run.run s = some r

namespace Extends

variable {α β : Type} {m m' m'' : Eval α} {run run' : Node → Eval Value}

theorem refl (m : Eval α) : Extends m m := fun _ _ h => h

theorem trans (h : Extends m m') (h' : Extends m' m'') : Extends m m'' := fun s r hr => h' s r (h s r hr)

theorem unfinished : Extends (unfinished : Eval α) m := fun _ _ h => nomatch h

theorem bind {f f' : α → Eval β} (hm : Extends m m') (hf : ∀ a, Extends (f a) (f' a)) :
    Extends (m >>= f) (m' >>= f') := by
  intro s r hr
  rw [run_bind] at hr ⊢
  cases h : m.run.run s with
  | none =>
    rw [h] at hr
    cases hr
  | some q =>
    rw [hm s q h]
    rw [h] at hr
    obtain ⟨o, s₁⟩ := q
    cases o with
    | error e => exact hr
    | ok a => exact hf a s₁ r hr

theorem program (h : ∀ n, Extends (run n) (run' n)) :
    ∀ (ns : List Node) (last : Value), Extends (program run last ns) (program run' last ns)
  | [], last => refl (pure last)
  | n :: ns, _ => bind (h n) fun _ => program h ns _

theorem block (h : ∀ n, Extends (run n) (run' n)) (ns : List Node) : Extends (block run ns) (block run' ns) := by
  induction ns with
  | nil => exact refl (pure Value.missing)
  | cons n ns ih =>
    refine bind (h n) fun v => ?_
    split
    · exact ih
    · exact refl (pure v)

end Extends

end Eval

open Eval

/-! ## More fuel -/

theorem eval_extends_succ (level : Int) (fuel : Nat) :
    ∀ n : Node, Extends (eval level fuel n) (eval level (fuel + 1) n) := by
  induction fuel with
  | zero => exact fun n => Extends.unfinished
  | succ fuel ih =>
    intro n
    cases n with
    | root ss => exact .program ih ss .missing
    | assign t name value => exact .bind (ih value) fun v => .refl _
    | print t value => exact .bind (ih value) fun v => .refl _
    | expr t e => exact ih e
    | block t ss => exact .block ih ss
    | cond t c y no =>
      refine .bind (ih c) fun v => .bind (.refl _) fun _ => ?_
      split
      · exact ih y
      · exact ih no
    | loop t c b =>
      refine .bind (ih c) fun v => .bind (.refl _) fun _ => ?_
      split
      · refine .bind (ih b) fun w => ?_
        split
        · exact ih (.loop t c b)
        · exact .refl _
      · exact .refl _
    | binary t l o r => exact .bind (ih l) fun a => .bind (ih r) fun b => .refl _
    | missing => exact .refl _
    | ident t name => exact .refl _
    | int t value => exact .refl _
    | unary t o r => exact .refl _

theorem eval_extends (level : Int) {fuel fuel' : Nat} (h : fuel ≤ fuel') (n : Node) :
    Extends (eval level fuel n) (eval level fuel' n) := by
  induction h with
  | refl => exact .refl _
  | step _ ih => exact ih.trans (eval_extends_succ level _ n)

/-! ## Ends -/

/-- The value `v`, and `last` if it is missing. -/
def Value.orElse (v last : Value) : Value := if v.isMissing then last else v

theorem Value.orElse_missing (v : Value) : v.orElse .missing = v := by
  cases v <;> rfl

theorem Value.orElse_orElse (u v w : Value) : u.orElse (v.orElse w) = (u.orElse v).orElse w := by
  cases u <;> rfl

def Ends (level : Int) (n : Node) (s : State) (o : Except Fault Value) (s' : State) : Prop :=
  ∃ fuel, (eval level fuel n).run.run s = some (o, s')

def EndsAll (level : Int) (last : Value) (ns : List Node) (s : State) (v : Value) (s' : State) : Prop :=
  ∃ fuel, (program (eval level fuel) last ns).run.run s = some (.ok v, s')

variable {level : Int} {last v : Value} {n : Node} {ns : List Node} {s s' : State}

theorem Ends.ok_of_named {o : Except Fault Value} (hn : n.named = true) (h : Ends level n s o s') :
    ∃ v, o = .ok v := by
  obtain ⟨fuel, hrun⟩ := h
  obtain ⟨v, hv, -⟩ := Invariant.trivial.eval_safe level fuel n hn s trivial o s' hrun
  exact ⟨v, hv⟩

theorem ends_root : Ends level (.root ns) s (.ok v) s' ↔ EndsAll level .missing ns s v s' := by
  constructor
  · rintro ⟨fuel, h⟩
    cases fuel with
    | zero => cases h
    | succ fuel => exact ⟨fuel, h⟩
  · rintro ⟨fuel, h⟩
    exact ⟨fuel + 1, h⟩

theorem ends_blank (hn : n.isBlank = true) : Ends level n s (.ok v) s' ↔ v = .missing ∧ s' = s := by
  obtain ⟨t, rfl⟩ := Node.exists_of_isBlank hn
  constructor
  · rintro ⟨fuel, h⟩
    match fuel with
    | 0 => cases h
    | 1 => cases h
    | fuel + 2 =>
      obtain ⟨hv, hs⟩ := Prod.mk.inj (Option.some.inj h)
      exact ⟨(Except.ok.inj hv).symm, hs.symm⟩
  · rintro ⟨rfl, rfl⟩
    exact ⟨2, rfl⟩

theorem endsAll_nil : EndsAll level last [] s v s' ↔ v = last ∧ s' = s := by
  constructor
  · rintro ⟨fuel, h⟩
    obtain ⟨hv, hs⟩ := Prod.mk.inj (Option.some.inj h)
    exact ⟨(Except.ok.inj hv).symm, hs.symm⟩
  · rintro ⟨rfl, rfl⟩
    exact ⟨0, rfl⟩

theorem endsAll_cons : EndsAll level last (n :: ns) s v s' ↔ ∃ u t, Ends level n s (.ok u) t ∧
    EndsAll level (u.orElse last) ns t v s' := by
  constructor
  · rintro ⟨fuel, h⟩
    rw [program, run_bind] at h
    cases hn : (eval level fuel n).run.run s with
    | none =>
      rw [hn] at h
      cases h
    | some r =>
      rw [hn] at h
      obtain ⟨o, t⟩ := r
      cases o with
      | error e => cases (Prod.mk.inj (Option.some.inj h)).1
      | ok u => exact ⟨u, t, ⟨fuel, hn⟩, fuel, h⟩
  · rintro ⟨u, t, ⟨fuel, hn⟩, fuel', hns⟩
    -- the larger amount of fuel is enough for both
    refine ⟨max fuel fuel', ?_⟩
    rw [program, run_bind, eval_extends level (Nat.le_max_left fuel fuel') n s _ hn]
    exact Extends.program (eval_extends level (Nat.le_max_right fuel fuel')) ns _ t _ hns

/-! ## Lists of statements -/

theorem endsAll_append {xs ys : List Node} : EndsAll level last (xs ++ ys) s v s' ↔ ∃ u t,
    EndsAll level last xs s u t ∧ EndsAll level u ys t v s' := by
  induction xs generalizing last s with
  | nil =>
    simp only [List.nil_append, endsAll_nil]
    constructor
    · exact fun h => ⟨last, s, ⟨rfl, rfl⟩, h⟩
    · rintro ⟨_, _, ⟨rfl, rfl⟩, h⟩
      exact h
  | cons x xs ih =>
    simp only [List.cons_append, endsAll_cons, ih]
    constructor
    · rintro ⟨a, t, hx, u, t', hxs, hys⟩
      exact ⟨u, t', ⟨a, t, hx, hxs⟩, hys⟩
    · rintro ⟨u, t', ⟨a, t, hx, hxs⟩, hys⟩
      exact ⟨a, t, hx, u, t', hxs, hys⟩

/-- Blank statements do nothing. -/
theorem endsAll_solid : EndsAll level last (Node.solid ns) s v s' ↔ EndsAll level last ns s v s' := by
  induction ns generalizing last s with
  | nil => exact Iff.rfl
  | cons n ns ih =>
    rw [Node.solid_cons]
    split
    · next hn =>
      rw [ih, endsAll_cons]
      simp only [ends_blank hn]
      constructor
      · exact fun h => ⟨.missing, s, ⟨rfl, rfl⟩, h⟩
      · rintro ⟨_, _, ⟨rfl, rfl⟩, h⟩
        exact h
    · simp only [endsAll_cons, ih]

/-- The value of the statements before matters only if the others have none. -/
theorem endsAll_last : EndsAll level last ns s v s' ↔
    ∃ u, EndsAll level .missing ns s u s' ∧ v = u.orElse last := by
  induction ns generalizing last s v with
  | nil =>
    simp only [endsAll_nil]
    constructor
    · rintro ⟨rfl, rfl⟩
      exact ⟨.missing, ⟨rfl, rfl⟩, rfl⟩
    · rintro ⟨_, ⟨rfl, rfl⟩, rfl⟩
      exact ⟨rfl, rfl⟩
  | cons n ns ih =>
    simp only [endsAll_cons]
    constructor
    · rintro ⟨a, t, hn, h⟩
      obtain ⟨u, hu, rfl⟩ := ih.1 h
      exact ⟨u.orElse a, ⟨a, t, hn, ih.2 ⟨u, hu, by rw [Value.orElse_missing]⟩⟩, Value.orElse_orElse u a last⟩
    · rintro ⟨w, ⟨a, t, hn, h⟩, rfl⟩
      obtain ⟨u, hu, rfl⟩ := ih.1 h
      refine ⟨a, t, hn, ih.2 ⟨u, hu, ?_⟩⟩
      rw [Value.orElse_missing, Value.orElse_orElse]

/-- A program made of two others, up to blank statements, ends as the second does from where the first has ended. -/
theorem ends_root_append {xs ys : List Node} (h : Node.solid ns = Node.solid xs ++ Node.solid ys) :
    Ends level (.root ns) s (.ok v) s' ↔ ∃ v₁ t v₂, Ends level (.root xs) s (.ok v₁) t ∧
      Ends level (.root ys) t (.ok v₂) s' ∧ v = v₂.orElse v₁ := by
  simp only [ends_root]
  rw [← endsAll_solid, h, endsAll_append]
  simp only [endsAll_solid]
  constructor
  · rintro ⟨v₁, t, h₁, hys⟩
    obtain ⟨v₂, h₂, rfl⟩ := endsAll_last.1 hys
    exact ⟨v₁, t, v₂, h₁, h₂, rfl⟩
  · rintro ⟨v₁, t, v₂, h₁, h₂, rfl⟩
    exact ⟨v₁, t, h₁, endsAll_last.2 ⟨v₂, h₂, rfl⟩⟩

end LineLang
