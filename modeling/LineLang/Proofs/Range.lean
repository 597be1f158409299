import Mathlib
import LineLang.Eval
import LineLang.Proofs.RoundTrip

/-!
# Evaluation stays within 64 bits

A tree from a file may nest its parts in any way, lack any of them, and hold numbers of any size. As long as its names
are texts and its assignments set names, evaluating it never stops with a fault, and no integer leaves the range of 64
bits.

* `Value.InRange`, `Store.InRange` : the integers of a value, at every depth of printing, and of a store fit in 64 bits;
* `Node.named` : names are texts, and the target of an assignment is a name;
* `Invariant I P` : a property of stores and one of values that the operations of the language keep;
* `Eval.Safe I m post` : from a store that satisfies `I`, `m` ends, if it ends, without a fault and with such a store,
  and its result satisfies `post`. There is one rule for each operation of the evaluator;
* `Invariant.eval_safe` : evaluation of named trees is safe, whatever the invariant;
* `named_of_parsed` : trees made by the parsers are named.
-/

namespace LineLang

def Value.InRange : Value → Prop
  | .missing => True
  | .int n => Word.InRange n
  | .printed v => v.InRange

instance Value.decidableInRange : (v : Value) → Decidable v.InRange
  | .missing => .isTrue trivial
  | .int n => inferInstanceAs (Decidable (Word.InRange n))
  | .printed v => decidableInRange v

def Store.InRange (s : Store) : Prop := ∀ entry ∈ s.entries, entry.2.InRange

instance (s : Store) : Decidable s.InRange := inferInstanceAs (Decidable (∀ entry ∈ s.entries, entry.2.InRange))

/-! ## Values and stores -/

namespace Value

theorem inRange_ofInt (n : Int) : (ofInt n).InRange := Word.wrap_inRange n

theorem inRange_ofBool (b : Bool) : (ofBool b).InRange := by
  cases b <;> decide

theorem inRange_map_ofInt (n : Option Int) : ((n.map ofInt).getD .missing).InRange := by
  cases n with
  | none => trivial
  | some n => exact inRange_ofInt n

theorem inRange_applyInt (operator : String) (a b : Int) : (applyInt operator a b).InRange := by
  unfold applyInt
  split
  · exact inRange_ofInt _
  · exact inRange_ofInt _
  · exact inRange_ofInt _
  · exact inRange_map_ofInt _
  · exact inRange_map_ofInt _
  iterate 8 exact inRange_ofBool _
  · trivial

theorem inRange_apply (operator : String) (v w : Value) : (apply operator v w).InRange := by
  unfold apply
  split
  · exact inRange_applyInt operator _ _
  · trivial

end Value

namespace Store

theorem inRange_get? {s : Store} (h : s.InRange) (name : Json) : ((s.get? name).getD .missing).InRange := by
  cases hv : s.get? name with
  | none => trivial
  | some v =>
    obtain ⟨l₁, l₂, hl, -⟩ := List.lookup_eq_some_iff.1 hv
    exact h (name, v) (by rw [hl]; simp)

theorem inRange_set {s : Store} (h : s.InRange) (name : Json) {v : Value} (hv : v.InRange) :
    (s.set name v).InRange := by
  have key : ∀ entries : List (Json × Value), (∀ entry ∈ entries, entry.2.InRange) →
      ∀ entry ∈ setEntry name v entries, entry.2.InRange := by
    intro entries
    induction entries with
    | nil => simpa [setEntry] using hv
    | cons e es ih =>
      intro he
      obtain ⟨he, hes⟩ := List.forall_mem_cons.1 he
      unfold setEntry
      split
      · exact List.forall_mem_cons.2 ⟨hv, hes⟩
      · exact List.forall_mem_cons.2 ⟨he, ih hes⟩
  exact key s.entries h

end Store

/-! ## Names -/

def Json.isText : Json → Bool
  | .str _ => true
  | _ => false

namespace Node

/-- Whether a tree is the use of a name. -/
def isIdent : Node → Bool
  | .ident .. => true
  | _ => false

mutual

def named : Node → Bool
  | .missing => true
  | .root statements => namedList statements
  | .assign _ name value => name.isIdent && named name && named value
  | .print _ value => named value
  | .expr _ expression => named expression
  | .block _ statements => namedList statements
  | .cond _ condition yes no => named condition && named yes && named no
  | .loop _ condition body => named condition && named body
  | .ident _ name => name.isText
  | .int .. => true
  | .binary _ left _ right => named left && named right
  | .unary _ _ right => named right

def namedList : List Node → Bool
  | [] => true
  | s :: ss => named s && namedList ss

end

theorem namedList_iff {ss : List Node} : namedList ss = true ↔ ∀ s ∈ ss, s.named = true := by
  induction ss with
  | nil => simp [namedList]
  | cons s ss ih => simp [namedList, ih]

end Node

theorem Formed.named {gap : Slot → Prop} {r : Role} {n : Node} (h : Formed gap r n) : n.named = true := by
  induction h with
  | empty _ => rfl
  | placed _ ih => exact ih
  | name _ _ => rfl
  | number _ _ => rfl
  | binary _ _ _ ihl ihr => simp [Node.named, ihl, ihr]
  | choice _ _ ihc ihy => simp [Node.named, ihc, ihy]
  | choiceElse _ _ _ ihc ihy ihn => simp [Node.named, ihc, ihy, ihn]
  | loop _ _ ihc ihb => simp [Node.named, ihc, ihb]
  | block _ ih => exact Node.namedList_iff.2 ih
  | assign _ _ _ ih => exact ih
  | print _ ih => exact ih
  | expr _ _ ih => exact ih

theorem named_of_parsed {t : Node} (h : Parsed t) : t.named = true := by
  obtain ⟨ss, rfl, hss⟩ := formed_of_parsed h
  exact Node.namedList_iff.2 fun n hn => (hss n hn).named

/-! ## Safe computations -/

structure Invariant (I : Store → Prop) (P : Value → Prop) : Prop where
  missing : P .missing
  ofInt : ∀ n, P (.ofInt n)
  apply : ∀ operator v w, P (.apply operator v w)
  printed : ∀ {v}, P v → P (.printed v)
  get? : ∀ {s}, I s → ∀ name, P ((Store.get? s name).getD .missing)
  set : ∀ {s}, I s → ∀ name {v}, P v → I (s.set name v)

theorem Invariant.inRange : Invariant Store.InRange Value.InRange where
  missing := trivial
  ofInt := Value.inRange_ofInt
  apply := Value.inRange_apply
  printed := id
  get? := Store.inRange_get?
  set := Store.inRange_set

theorem Invariant.trivial : Invariant (fun _ => True) fun _ => True := by
  constructor <;> intros <;> exact True.intro

namespace Eval

/-- From a store that satisfies `I`, `m` does not stop with a fault; if it ends, the store is again such a one, and the
result satisfies `post`. -/
def Safe (I : Store → Prop) {α : Type} (m : Eval α) (post : α → Prop) : Prop :=
  ∀ s : State, I s.store → ∀ o s', m.run.run s = some (o, s') →
    ∃ a, o = .ok a ∧ post a ∧ I s'.store

theorem run_bind {α β : Type} (m : Eval α) (f : α → Eval β) (s : State) :
    (m >>= f).run.run s =
      match m.run.run s with
      | none => none
      | some (.ok a, s') => (f a).run.run s'
      | some (.error e, s') => some (.error e, s') := by
  show (m.run.run s).bind _ = _
  cases m.run.run s with
  | none => rfl
  | some r =>
    obtain ⟨o, s'⟩ := r
    cases o <;> rfl

namespace Safe

variable {I : Store → Prop} {P : Value → Prop} {α β : Type} {post : α → Prop} {post' : β → Prop}

theorem pure {a : α} (h : post a) : Safe I (pure a) post := by
  intro s hs o s' hrun
  obtain ⟨rfl, rfl⟩ := Prod.mk.inj (Option.some.inj hrun)
  exact ⟨a, rfl, h, hs⟩

theorem bind {m : Eval α} {f : α → Eval β} (hm : Safe I m post) (hf : ∀ a, post a → Safe I (f a) post') :
    Safe I (m >>= f) post' := by
  intro s hs o s' hrun
  rw [run_bind] at hrun
  cases hr : m.run.run s with
  | none =>
    rw [hr] at hrun
    cases hrun
  | some r =>
    obtain ⟨o₁, s₁⟩ := r
    obtain ⟨a, rfl, ha, hs₁⟩ := hm s hs o₁ s₁ hr
    rw [hr] at hrun
    exact hf a ha s₁ hs₁ o s' hrun

theorem unfinished : Safe I (unfinished : Eval α) post := by
  intro s _ o s' hrun
  cases hrun

theorem tell (level : Int) (e : Event) : Safe I (tell level e) fun _ => True := by
  intro s hs o s' hrun
  obtain ⟨rfl, rfl⟩ := Prod.mk.inj (Option.some.inj hrun)
  refine ⟨(), rfl, trivial, ?_⟩
  dsimp only
  split <;> exact hs

theorem lookup (h : Invariant I P) (name : String) : Safe I (lookup (.str name)) P := by
  intro s hs o s' hrun
  obtain ⟨rfl, rfl⟩ := Prod.mk.inj (Option.some.inj hrun)
  exact ⟨_, rfl, h.get? hs (.str name), hs⟩

theorem target (t : Token) (name : String) : Safe I (target (.ident t (.str name))) fun _ => True := by
  intro s hs o s' hrun
  obtain ⟨rfl, rfl⟩ := Prod.mk.inj (Option.some.inj hrun)
  exact ⟨_, rfl, trivial, hs⟩

theorem assign (h : Invariant I P) (level : Int) (name : Json) {v : Value} (hv : P v) :
    Safe I (assign level name v) fun _ => True := by
  have hset : Safe I (modify fun s => { s with store := s.store.set name v }) fun _ => True := by
    intro s hs o s' hrun
    obtain ⟨rfl, rfl⟩ := Prod.mk.inj (Option.some.inj hrun)
    exact ⟨(), rfl, trivial, h.set hs name hv⟩
  exact bind hset fun _ _ => tell level _

theorem program {run : Node → Eval Value} {ns : List Node} (h : ∀ n ∈ ns, Safe I (run n) P) :
    ∀ {last : Value}, P last → Safe I (program run last ns) P := by
  induction ns with
  | nil => exact fun hlast => pure hlast
  | cons n ns ih =>
    intro last hlast
    obtain ⟨hn, hns⟩ := List.forall_mem_cons.1 h
    refine bind hn fun v hv => ih hns ?_
    split
    · exact hlast
    · exact hv

theorem block {run : Node → Eval Value} {ns : List Node} (hm : P .missing) (h : ∀ n ∈ ns, Safe I (run n) P) :
    Safe I (block run ns) P := by
  induction ns with
  | nil => exact pure hm
  | cons n ns ih =>
    obtain ⟨hn, hns⟩ := List.forall_mem_cons.1 h
    refine bind hn fun v hv => ?_
    split
    · exact ih hns
    · exact pure hv

end Safe

end Eval

open Eval in
theorem Invariant.eval_safe {I : Store → Prop} {P : Value → Prop} (h : Invariant I P) (level : Int) (fuel : Nat) :
    ∀ n : Node, n.named = true → Safe I (eval level fuel n) P := by
  induction fuel with
  | zero => exact fun n _ => Safe.unfinished
  | succ fuel ih =>
    intro n hn
    cases n with
    | missing => exact Safe.pure h.missing
    | root ss => exact Safe.program (fun s hs => ih s (Node.namedList_iff.1 hn s hs)) h.missing
    | assign t name value =>
      simp only [Node.named, Bool.and_eq_true] at hn
      obtain ⟨⟨hi, hname⟩, hv⟩ := hn
      obtain ⟨t', x, rfl⟩ : ∃ t' x, name = .ident t' (.str x) := by
        cases name with
        | ident t' j => cases j <;> first | exact ⟨t', _, rfl⟩ | cases hname
        | _ => cases hi
      refine Safe.bind (ih value hv) fun v hv => Safe.bind (Safe.target t' x) fun key _ => ?_
      exact Safe.bind (Safe.assign h level key hv) fun _ _ => Safe.pure h.missing
    | print t value => exact Safe.bind (ih value hn) fun v hv => Safe.pure (h.printed hv)
    | expr t e => exact ih e hn
    | block t ss => exact Safe.block h.missing fun s hs => ih s (Node.namedList_iff.1 hn s hs)
    | cond t c y no =>
      simp only [Node.named, Bool.and_eq_true] at hn
      obtain ⟨⟨hc, hy⟩, hno⟩ := hn
      refine Safe.bind (ih c hc) fun v _ => Safe.bind (Safe.tell level _) fun _ _ => ?_
      split
      · exact ih y hy
      · exact ih no hno
    | loop t c b =>
      simp only [Node.named, Bool.and_eq_true] at hn
      refine Safe.bind (ih c hn.1) fun v _ => Safe.bind (Safe.tell level _) fun _ _ => ?_
      split
      · refine Safe.bind (ih b hn.2) fun w hw => ?_
        split
        · exact ih (.loop t c b) (by simp [Node.named, hn])
        · exact Safe.pure hw
      · exact Safe.pure h.missing
    | ident t name =>
      cases name with
      | str x => exact Safe.lookup h x
      | _ => cases hn
    | int t value => exact Safe.pure (h.ofInt value)
    | binary t l o r =>
      simp only [Node.named, Bool.and_eq_true] at hn
      refine Safe.bind (ih l hn.1) fun a _ => Safe.bind (ih r hn.2) fun b _ => Safe.pure ?_
      unfold operate
      split
      · exact h.apply _ a b
      · exact h.missing
    | unary t o r => exact Safe.pure h.missing

theorem eval_safe (level : Int) (fuel : Nat) (n : Node) (hn : n.named = true) :
    Eval.Safe Store.InRange (eval level fuel n) Value.InRange :=
  Invariant.inRange.eval_safe level fuel n hn

/-- However a named tree is nested and whatever it lacks, evaluating it on a store in range ends, if it ends, with a
value and not with a fault; the value and the store are then in range. The trees of both parsers are named. -/
theorem eval_inRange :
    (∀ (n : Node) (level : Int) (fuel : Nat) (s s' : State) (o : Except Fault Value), n.named = true →
      s.store.InRange → (eval level fuel n).run.run s = some (o, s') →
        ∃ v, o = .ok v ∧ v.InRange ∧ s'.store.InRange) ∧
    ∀ t : Node, Parsed t → t.named = true :=
  ⟨fun n level fuel s s' o hn hs hrun => eval_safe level fuel n hn s hs o s' hrun, fun _ ht => named_of_parsed ht⟩

/-- A program inside another, with a number beyond 64 bits, a printed value in a name, a quotient that does not fit, a
block without a condition and an operator without operands. -/
def outOfRange : Node :=
  let token : Token := Lexeme.eof.token
  let use (x : String) : Node := .ident token (.str x)
  .root [.assign token (use "a") (.int token 18446744073709551621),
    .root [.assign token (use "b") (.print token (.binary token (use "m") (.str "/") (.int token (-1)))),
      .cond token .missing (.block token []) .missing, .binary token .missing (.str "?") .missing],
    .unary token .null (.int token 3), .loop token (use "b") .missing, use "b"]

/-- The store on which `outOfRange` runs. -/
def lowestStore : Store := ⟨[(.str "m", .int (-9223372036854775808))]⟩

/-- What it leaves. -/
def outOfRangeState : State where
  store := ⟨[(.str "m", .int (-9223372036854775808)), (.str "a", .int 5),
    (.str "b", .printed (.int (-9223372036854775808)))]⟩
  log := [.tested (.printed (.int (-9223372036854775808))), .chosen .missing,
    .assigned (.str "b") (.printed (.int (-9223372036854775808))), .assigned (.str "a") (.int 5)]

theorem eval_inRange_outOfRange :
    outOfRange.named = true ∧ lowestStore.InRange ∧
    (eval 3 8 outOfRange).run.run { store := lowestStore } =
      some (.ok (.printed (.int (-9223372036854775808))), outOfRangeState) ∧ outOfRangeState.store.InRange ∧
    Parsed (Tolerant.parse "x = (\ny = z /") ∧ (Tolerant.parse "x = (\ny = z /").named = true := by
  have hn : outOfRange.named = true := by decide
  have hs : lowestStore.InRange := by decide
  have hrun : (eval 3 8 outOfRange).run.run { store := lowestStore } =
      some (.ok (.printed (.int (-9223372036854775808))), outOfRangeState) := by cbv
  have hp : Parsed (Tolerant.parse "x = (\ny = z /") := .inr ⟨_, rfl⟩
  obtain ⟨-, -, -, hout⟩ := eval_inRange.1 _ _ _ _ _ _ hn hs hrun
  exact ⟨hn, hs, hrun, hout, hp, eval_inRange.2 _ hp⟩

end LineLang
