import Mathlib
import LineLang.Proofs.Range

/-!
# Operators as machine arithmetic

The evaluator computes with unbounded integers and brings each result into 64 bits. On trees of numbers, names and
binary operators this is the arithmetic of 64-bit machine words in two's complement.

* `Word.Divides`, `Word.division_toward_zero` : what division computes, on unbounded integers;
* `Word.compute` : the binary operators on machine words;
* `Value.applyInt_toInt` : the evaluator's operators are these, apart from divisions by zero;
* `Node.isOperation`, `Node.word` : the trees in question, and their meaning as a machine word;
* `Gives store n v` : evaluating `n` ends with `v`, changes nothing and tells nothing;
* `Defined store n` : the names of `n` hold integers, and no divisor in `n` is zero;
* `gives_word`, `gives_of_not_defined` : evaluation gives the machine word of a tree that is defined, and otherwise
  nothing or the printed value of a name;
* `eval_operation` : what each tree gives, names that hold a printed value included.
-/

namespace LineLang

namespace Word

/-! ## Division toward zero -/

/-- The numbers `q` and `r` are a quotient and a remainder that is smaller than the divisor and on the dividend's side
of zero. -/
structure Divides (a b q r : Int) : Prop where
  sum : a = b * q + r
  small : |r| < |b|
  sign : r = 0 ∨ r.sign = a.sign

namespace Divides

variable {a b q r q' r' : Int}

theorem side (h : Divides a b q r) : (0 ≤ a → 0 ≤ r) ∧ (a ≤ 0 → r ≤ 0) := by
  rcases h.sign with rfl | hsign
  · exact ⟨fun _ => le_refl 0, fun _ => le_refl 0⟩
  · exact ⟨fun ha => Int.sign_nonneg_iff.1 (hsign ▸ Int.sign_nonneg_iff.2 ha),
      fun ha => Int.sign_nonpos_iff.1 (hsign ▸ Int.sign_nonpos_iff.2 ha)⟩

/-- Two remainders lie on the same side of zero, so they differ by less than the divisor. -/
theorem unique (h : Divides a b q r) (h' : Divides a b q' r') : q' = q ∧ r' = r := by
  have hmul : b * (q - q') = r' - r := by
    have hsum := h.sum
    have hsum' := h'.sum
    rw [mul_sub]
    omega
  have hnear : |r' - r| < |b| := by
    have hsmall := h.small
    have hsmall' := h'.small
    have hside := h.side
    have hside' := h'.side
    rw [abs_lt] at *
    rcases le_total 0 a with ha | ha
    · have := hside.1 ha
      have := hside'.1 ha
      omega
    · have := hside.2 ha
      have := hside'.2 ha
      omega
  have hrem : r' - r = 0 := Int.eq_zero_of_abs_lt_dvd ((abs_dvd b _).2 ⟨q - q', hmul.symm⟩) hnear
  have hb : b ≠ 0 := by
    rintro rfl
    exact absurd h.small (by simp)
  rw [hrem, mul_eq_zero, or_iff_right hb] at hmul
  omega

theorem tdiv_tmod (a : Int) {b : Int} (hb : b ≠ 0) : Divides a b (a.tdiv b) (a.tmod b) := by
  refine ⟨(Int.mul_tdiv_add_tmod a b).symm, ?_, ?_⟩
  · rw [← Int.natCast_natAbs, ← Int.natCast_natAbs, Int.natAbs_tmod]
    exact_mod_cast Nat.mod_lt _ (Int.natAbs_pos.2 hb)
  · by_cases hr : a.tmod b = 0
    · exact .inl hr
    right
    rcases lt_trichotomy a 0 with ha | rfl | ha
    · have hneg : 0 ≤ -(a.tmod b) := Int.neg_tmod a b ▸ Int.tmod_nonneg b (by omega)
      rw [Int.sign_eq_neg_one_of_neg ha, Int.sign_eq_neg_one_of_neg (by omega)]
    · exact absurd (Int.zero_tmod b) hr
    · have hpos : 0 ≤ a.tmod b := Int.tmod_nonneg b ha.le
      rw [Int.sign_eq_one_of_pos ha, Int.sign_eq_one_of_pos (by omega)]

/-- The remainder is smaller than the divisor, so it fits where the divisor does. -/
theorem inRange_remainder (h : Divides a b q r) (hb : InRange b) : InRange r := by
  have hsmall := abs_lt.1 h.small
  unfold InRange least greatest at *
  rcases abs_choice b with habs | habs <;> rw [habs] at hsmall <;> omega

end Divides

/-- The quotient fits, but for that of the least number by minus one. -/
theorem inRange_tdiv_iff {a b : Int} (ha : InRange a) (hb : b ≠ 0) :
    InRange (a.tdiv b) ↔ ¬ (a = least ∧ b = -1) := by
  by_cases hneg : b = -1
  · rw [hneg, Int.tdiv_neg, Int.tdiv_one]
    unfold InRange least greatest at *
    omega
  refine iff_of_true ?_ fun h => hneg h.2
  by_cases hone : b = 1
  · rwa [hone, Int.tdiv_one]
  have hhalf : (a.tdiv b).natAbs ≤ a.natAbs / 2 := by
    rw [Int.natAbs_tdiv]
    exact Nat.div_le_div_left (by omega) (by decide)
  unfold InRange least greatest at *
  omega

/-- Division rounds toward zero: by a divisor other than zero, the quotient and the remainder are the only numbers that
divide so, however large the numbers are. Of two numbers in 64 bits the remainder fits, and so does the quotient, but
for that of the least number by minus one, which wraps to the least number. -/
theorem division_toward_zero (a : Int) {b : Int} (hb : b ≠ 0) :
    ∃ q r, quotient? a b = some q ∧ remainder? a b = some r ∧
      (∀ q' r', Divides a b q' r' ↔ q' = q ∧ r' = r) ∧
      (InRange a → InRange b → InRange r ∧ (InRange q ↔ ¬ (a = least ∧ b = -1)) ∧
        (a = least ∧ b = -1 → wrap q = least)) := by
  have hdivides := Divides.tdiv_tmod a hb
  refine ⟨a.tdiv b, a.tmod b, if_neg hb, if_neg hb, fun q' r' => ⟨hdivides.unique, ?_⟩, fun ha hb' => ?_⟩
  · rintro ⟨rfl, rfl⟩
    exact hdivides
  · refine ⟨hdivides.inRange_remainder hb', inRange_tdiv_iff ha hb, ?_⟩
    rintro ⟨rfl, rfl⟩
    decide

/-- The least number by minus one, the one quotient of numbers in 64 bits that does not fit. -/
theorem division_toward_zero_least : (-1 : Int) ≠ 0 ∧
    ∃ q r, quotient? least (-1) = some q ∧ remainder? least (-1) = some r ∧
      (∀ q' r', Divides least (-1) q' r' ↔ q' = q ∧ r' = r) ∧
      (InRange least → InRange (-1) → InRange r ∧ (InRange q ↔ ¬ (least = least ∧ (-1 : Int) = -1)) ∧
        (least = least ∧ (-1 : Int) = -1 → wrap q = least)) :=
  ⟨by decide, division_toward_zero least (by decide)⟩

/-! ## Machine words -/

theorem wrap_eq_toInt (n : Int) : wrap n = (BitVec.ofInt 64 n).toInt := by
  rw [BitVec.toInt_ofInt, Int.bmod_def, wrap]
  omega

theorem toInt_ofInt_of_inRange {n : Int} (h : InRange n) : (BitVec.ofInt 64 n).toInt = n := by
  rw [← wrap_eq_toInt, wrap_of_inRange h]

def divisions : List String := ["/", "%"]

def operators : List String := ["+", "-", "*", "/", "%", ">", ">=", "<", "<=", "==", "!=", "||", "&&"]

/-- The machine word of a comparison. -/
def flag (b : Bool) : BitVec 64 := if b then 1 else 0

/-- The operator with the given spelling on machine words. Division rounds toward zero, comparisons are signed, and
`||` and `&&` look for the word one. -/
def compute (operator : String) (a b : BitVec 64) : BitVec 64 :=
  match operator with
  | "+" => a + b
  | "-" => a - b
  | "*" => a * b
  | "/" => a.sdiv b
  | "%" => a.srem b
  | ">" => flag (b.slt a)
  | ">=" => flag (b.sle a)
  | "<" => flag (a.slt b)
  | "<=" => flag (a.sle b)
  | "==" => flag (a = b)
  | "!=" => flag (a ≠ b)
  | "||" => flag (a = 1 || b = 1)
  | "&&" => flag (a = 1 && b = 1)
  | _ => 0

/-- The one quotient that does not fit is wrapped, and its remainder is zero. -/
example : compute "/" (.ofInt 64 least) (.ofInt 64 (-1)) = .ofInt 64 least ∧
    compute "%" (.ofInt 64 least) (.ofInt 64 (-1)) = 0 := by decide

theorem toInt_flag (b : Bool) : (flag b).toInt = if b then 1 else 0 := by
  cases b <;> rfl

theorem toInt_eq_one {a : BitVec 64} : a.toInt = 1 ↔ a = 1 := by
  rw [← BitVec.toInt_inj]
  rfl

theorem toInt_eq_zero {a : BitVec 64} : a.toInt = 0 ↔ a = 0 := by
  rw [← BitVec.toInt_inj]
  rfl

end Word

namespace Value

open Word (divisions operators compute)

theorem ofInt_eq (n : Int) : ofInt n = .int (BitVec.ofInt 64 n).toInt := by
  rw [ofInt, Word.wrap_eq_toInt]

theorem ofBool_eq (b : Bool) : ofBool b = .int (Word.flag b).toInt := by
  rw [ofBool, Word.toInt_flag]

theorem map_ofInt_quotient {a b : Int} (hb : b ≠ 0) :
    ((Word.quotient? a b).map ofInt).getD .missing = ofInt (a.tdiv b) := by
  rw [Word.quotient?, if_neg hb]
  rfl

theorem map_ofInt_remainder {a b : Int} (hb : b ≠ 0) :
    ((Word.remainder? a b).map ofInt).getD .missing = ofInt (a.tmod b) := by
  rw [Word.remainder?, if_neg hb]
  rfl

/-- On the values of machine words, the evaluator's operators are those of the machine. -/
theorem applyInt_toInt {o : String} (ho : o ∈ operators) {a b : BitVec 64} (hb : o ∈ divisions → b ≠ 0) :
    applyInt o a.toInt b.toInt = .int (compute o a b).toInt := by
  have hzero : o ∈ divisions → b.toInt ≠ 0 := fun h => mt Word.toInt_eq_zero.1 (hb h)
  simp only [operators, List.mem_cons, List.not_mem_nil, or_false] at ho
  rcases ho with rfl | rfl | rfl | rfl | rfl | rfl | rfl | rfl | rfl | rfl | rfl | rfl | rfl
  · show ofInt _ = .int (a + b).toInt
    rw [ofInt_eq, BitVec.toInt_ofInt, BitVec.toInt_add]
  · show ofInt _ = .int (a - b).toInt
    rw [ofInt_eq, BitVec.toInt_ofInt, BitVec.toInt_sub]
  · show ofInt _ = .int (a * b).toInt
    rw [ofInt_eq, BitVec.toInt_ofInt, BitVec.toInt_mul]
  · show Option.getD _ Value.missing = .int (a.sdiv b).toInt
    rw [map_ofInt_quotient (hzero (by decide)), ofInt_eq, BitVec.toInt_ofInt, BitVec.toInt_sdiv]
  · show Option.getD _ Value.missing = .int (a.srem b).toInt
    rw [map_ofInt_remainder (hzero (by decide)), ← BitVec.toInt_srem, ofInt_eq, BitVec.ofInt_toInt]
  · show ofBool _ = .int (Word.flag (b.slt a)).toInt
    rw [ofBool_eq, BitVec.slt_eq_decide]
  · show ofBool _ = .int (Word.flag (b.sle a)).toInt
    rw [ofBool_eq, BitVec.sle_eq_decide]
  · show ofBool _ = .int (Word.flag (a.slt b)).toInt
    rw [ofBool_eq, BitVec.slt_eq_decide]
  · show ofBool _ = .int (Word.flag (a.sle b)).toInt
    rw [ofBool_eq, BitVec.sle_eq_decide]
  · show ofBool _ = .int (Word.flag (a = b)).toInt
    simp only [ofBool_eq, BitVec.toInt_inj]
  · show ofBool _ = .int (Word.flag (a ≠ b)).toInt
    simp only [ofBool_eq, ne_eq, BitVec.toInt_inj]
  · show ofBool _ = .int (Word.flag (a = 1 || b = 1)).toInt
    simp only [ofBool_eq, Word.toInt_eq_one]
  · show ofBool _ = .int (Word.flag (a = 1 && b = 1)).toInt
    simp only [ofBool_eq, Word.toInt_eq_one]

theorem applyInt_zero {o : String} (ho : o ∈ divisions) (a : Int) : applyInt o a 0 = .missing := by
  simp only [divisions, List.mem_cons, List.not_mem_nil, or_false] at ho
  rcases ho with rfl | rfl <;> rfl

/-- Operators work on integers only. -/
theorem apply_eq_missing {o : String} {v w : Value} (h : (∀ k, v ≠ .int k) ∨ ∀ k, w ≠ .int k) :
    apply o v w = .missing := by
  cases v with
  | int a =>
    cases w with
    | int b => rcases h with h | h <;> exact absurd rfl (h _)
    | _ => rfl
  | _ => rfl

end Value

/-! ## Trees of operators -/

/-- The machine word that a name holds. -/
def Store.word (s : Store) (name : String) : BitVec 64 :=
  match s.get? (.str name) with
  | some (.int n) => .ofInt 64 n
  | _ => 0

namespace Node

/-- Whether a tree is made of numbers, names and binary operators only. -/
def isOperation : Node → Bool
  | .int .. => true
  | .ident _ name => name.isText
  | .binary _ left (.str o) right => Word.operators.contains o && (isOperation left && isOperation right)
  | _ => false

/-- The machine word that a tree of operators stands for. -/
def word (s : Store) : Node → BitVec 64
  | .int _ n => .ofInt 64 n
  | .ident _ (.str name) => s.word name
  | .binary _ left (.str o) right => Word.compute o (word s left) (word s right)
  | _ => 0

/-- The names in a tree of operators. -/
def uses : Node → List String
  | .ident _ (.str name) => [name]
  | .binary _ left _ right => uses left ++ uses right
  | _ => []

/-- The right operands of the divisions in a tree of operators. -/
def divisors : Node → List Node
  | .binary _ left (.str o) right =>
    (if o ∈ Word.divisions then [right] else []) ++ (divisors left ++ divisors right)
  | _ => []

/-- Whether a tree is made of numbers, sums, differences and products only. -/
def isPolynomial : Node → Bool
  | .int .. => true
  | .binary _ left (.str o) right => ["+", "-", "*"].contains o && (isPolynomial left && isPolynomial right)
  | _ => false

/-- The exact value of sums, differences and products of numbers. -/
def exact : Node → Int
  | .int _ n => n
  | .binary _ left (.str "+") right => exact left + exact right
  | .binary _ left (.str "-") right => exact left - exact right
  | .binary _ left (.str "*") right => exact left * exact right
  | _ => 0

theorem isOperation_binary {t : Token} {l r : Node} {o : Json} (h : (Node.binary t l o r).isOperation = true) :
    ∃ s, o = .str s ∧ s ∈ Word.operators ∧ l.isOperation = true ∧ r.isOperation = true := by
  cases o with
  | str s =>
    simp only [isOperation, Bool.and_eq_true, List.contains_iff_mem] at h
    exact ⟨s, rfl, h⟩
  | _ => cases h

end Node

/-! ## Evaluation -/

/-- Evaluating `n` ends with the value `v`, at every trace level; it changes no name and tells nothing. -/
def Gives (store : Store) (n : Node) (v : Value) : Prop :=
  ∃ bound, ∀ fuel ≥ bound, ∀ (level : Int) (log : List Event),
    (eval level fuel n).run.run ⟨store, log⟩ = some (.ok v, ⟨store, log⟩)

namespace Gives

variable {store : Store} {l r : Node} {a b : Value}

theorem unique {n : Node} {v w : Value} (hv : Gives store n v) (hw : Gives store n w) : v = w := by
  obtain ⟨i, hi⟩ := hv
  obtain ⟨j, hj⟩ := hw
  have h := (hi (max i j) (by omega) 0 []).symm.trans (hj (max i j) (by omega) 0 [])
  exact Except.ok.inj (Prod.mk.inj (Option.some.inj h)).1

theorem iff_eq {n : Node} {v w : Value} (hw : Gives store n w) : Gives store n v ↔ v = w :=
  ⟨fun hv => hv.unique hw, fun h => h ▸ hw⟩

/-- One unit of fuel is for the node itself. -/
theorem of_succ {n : Node} {v : Value} (bound : Nat) (h : ∀ fuel ≥ bound, ∀ (level : Int) (log : List Event),
    (eval level (fuel + 1) n).run.run ⟨store, log⟩ = some (.ok v, ⟨store, log⟩)) : Gives store n v := by
  refine ⟨bound + 1, fun fuel hf level log => ?_⟩
  obtain ⟨fuel, rfl⟩ : ∃ k, fuel = k + 1 := ⟨fuel - 1, by omega⟩
  exact h fuel (by omega) level log

theorem int (t : Token) (n : Int) : Gives store (.int t n) (.int (BitVec.ofInt 64 n).toInt) := by
  rw [← Value.ofInt_eq]
  exact of_succ 0 fun _ _ _ _ => rfl

theorem ident (t : Token) (name : String) :
    Gives store (.ident t (.str name)) ((store.get? (.str name)).getD .missing) :=
  of_succ 0 fun _ _ _ _ => rfl

theorem binary (hl : Gives store l a) (hr : Gives store r b) (t : Token) (o : Json) :
    Gives store (.binary t l o r) (Eval.operate o a b) := by
  obtain ⟨i, hi⟩ := hl
  obtain ⟨j, hj⟩ := hr
  refine of_succ (max i j) fun fuel hf level log => ?_
  have hright : (eval level fuel r >>= fun b => pure (Eval.operate o a b)).run.run ⟨store, log⟩ =
      some (.ok (Eval.operate o a b), ⟨store, log⟩) := by
    rw [Eval.run_bind, hj fuel (by omega)]
    rfl
  show (eval level fuel l >>= fun a => eval level fuel r >>= fun b => pure (Eval.operate o a b)).run.run _ = _
  rw [Eval.run_bind, hi fuel (by omega)]
  exact hright

end Gives

structure Defined (store : Store) (n : Node) : Prop where
  uses : ∀ name ∈ n.uses, ∃ k, store.get? (.str name) = some (.int k)
  divisors : ∀ d ∈ n.divisors, ¬ Gives store d (.int 0)

namespace Defined

variable {store : Store} {l r : Node} {t : Token} {o : String}

theorem ident {name : String} : Defined store (.ident t (.str name)) ↔ ∃ k, store.get? (.str name) = some (.int k) := by
  refine ⟨fun h => h.uses name (List.mem_singleton.2 rfl), fun h => ⟨?_, ?_⟩⟩
  · simpa [Node.uses] using h
  · simp [Node.divisors]

theorem binary : Defined store (.binary t l (.str o) r) ↔
    Defined store l ∧ Defined store r ∧ (o ∈ Word.divisions → ¬ Gives store r (.int 0)) := by
  have hd : (∀ d ∈ (Node.binary t l (.str o) r).divisors, ¬ Gives store d (.int 0)) ↔
      (o ∈ Word.divisions → ¬ Gives store r (.int 0)) ∧
      (∀ d ∈ l.divisors, ¬ Gives store d (.int 0)) ∧ ∀ d ∈ r.divisors, ¬ Gives store d (.int 0) := by
    rw [Node.divisors]
    simp only [List.forall_mem_append]
    by_cases ho : o ∈ Word.divisions <;> simp [ho]
  constructor
  · rintro ⟨hu, hz⟩
    obtain ⟨ho, hl, hr⟩ := hd.1 hz
    obtain ⟨hul, hur⟩ := List.forall_mem_append.1 hu
    exact ⟨⟨hul, hl⟩, ⟨hur, hr⟩, ho⟩
  · rintro ⟨hl, hr, ho⟩
    exact ⟨List.forall_mem_append.2 ⟨hl.uses, hr.uses⟩, hd.2 ⟨ho, hl.divisors, hr.divisors⟩⟩

end Defined

/-- A tree of operators gives its machine word if it is defined, and else something that is no integer. -/
def Computes (store : Store) (n : Node) : Prop :=
  ∃ v, Gives store n v ∧
    (Defined store n ∧ v = .int (n.word store).toInt ∨ ¬ Defined store n ∧ ∀ k, v ≠ .int k)

theorem computes_ident {store : Store} (hs : store.InRange) (t : Token) (name : String) :
    Computes store (.ident t (.str name)) := by
  refine ⟨_, .ident t name, ?_⟩
  have hr := Store.inRange_get? hs (.str name)
  simp only [Defined.ident, Node.word, Store.word]
  generalize store.get? (.str name) = found at hr ⊢
  cases found with
  | none => exact .inr ⟨by simp, by simp⟩
  | some v =>
    cases v with
    | int k => exact .inl ⟨⟨k, rfl⟩, by rw [Word.toInt_ofInt_of_inRange hr]; rfl⟩
    | _ => exact .inr ⟨by simp, by simp⟩

theorem computes_binary {store : Store} {l r : Node} (hl : Computes store l) (hr : Computes store r) (t : Token)
    {o : String} (ho : o ∈ Word.operators) :
    ∃ v, Gives store (.binary t l (.str o) r) v ∧
      (Defined store (.binary t l (.str o) r) ∧ v = .int ((Node.binary t l (.str o) r).word store).toInt ∨
        ¬ Defined store (.binary t l (.str o) r) ∧ v = .missing) := by
  obtain ⟨a, hga, ha⟩ := hl
  obtain ⟨b, hgb, hb⟩ := hr
  refine ⟨_, hga.binary hgb t (.str o), ?_⟩
  rw [Defined.binary]
  show _ ∧ Value.apply o a b = _ ∨ _ ∧ Value.apply o a b = _
  rcases ha with ⟨hda, rfl⟩ | ⟨hda, ha⟩
  · rcases hb with ⟨hdb, rfl⟩ | ⟨hdb, hb⟩
    · by_cases hz : o ∈ Word.divisions ∧ r.word store = 0
      · rw [hz.2] at hgb ⊢
        exact .inr ⟨fun h => h.2.2 hz.1 hgb, Value.applyInt_zero hz.1 _⟩
      · refine .inl ⟨⟨hda, hdb, fun hd hgz => hz ⟨hd, ?_⟩⟩, ?_⟩
        · exact Word.toInt_eq_zero.1 (Value.int.inj (hgb.unique hgz))
        · exact Value.applyInt_toInt ho fun hd hw => hz ⟨hd, hw⟩
    · exact .inr ⟨fun h => hdb h.2.1, Value.apply_eq_missing (.inr hb)⟩
  · exact .inr ⟨fun h => hda h.1, Value.apply_eq_missing (.inl ha)⟩

theorem computes_of_operation {store : Store} (hs : store.InRange) :
    ∀ n : Node, n.isOperation = true → Computes store n
  | .int t k, _ => ⟨_, .int t k, .inl ⟨⟨by simp [Node.uses], by simp [Node.divisors]⟩, rfl⟩⟩
  | .ident t name, h => by
    cases name with
    | str x => exact computes_ident hs t x
    | _ => cases h
  | .binary t l o r, h => by
    obtain ⟨o, rfl, ho, hl, hr⟩ := Node.isOperation_binary h
    obtain ⟨v, hg, hv⟩ :=
      computes_binary (computes_of_operation hs l hl) (computes_of_operation hs r hr) t ho
    refine ⟨v, hg, hv.imp_right fun hm => ⟨hm.1, ?_⟩⟩
    simp [hm.2]

/-- The printed value that a name holds, for a tree that is a single name. -/
def Node.printed? (store : Store) : Node → Option Value
  | .ident _ name =>
    match store.get? name with
    | some (.printed v) => some v
    | _ => none
  | _ => none

/-- What a tree of operators gives besides an integer. -/
theorem gives_of_not_defined {store : Store} (hs : store.InRange) {n : Node} (h : n.isOperation = true)
    (hd : ¬ Defined store n) : Gives store n (((n.printed? store).map .printed).getD .missing) := by
  cases n with
  | int t k => exact absurd ⟨by simp [Node.uses], by simp [Node.divisors]⟩ hd
  | ident t name =>
    cases name with
    | str x =>
      have hg : Gives store (.ident t (.str x)) _ := .ident t x
      rw [Defined.ident] at hd
      rw [Node.printed?]
      generalize store.get? (.str x) = found at hg hd ⊢
      cases found with
      | none => exact hg
      | some v =>
        cases v with
        | int k => exact absurd ⟨k, rfl⟩ hd
        | _ => exact hg
    | _ => cases h
  | binary t l o r =>
    obtain ⟨o, rfl, ho, hl, hr⟩ := Node.isOperation_binary h
    obtain ⟨v, hg, hv⟩ := computes_binary (computes_of_operation hs l hl) (computes_of_operation hs r hr) t ho
    obtain ⟨-, rfl⟩ := hv.resolve_left fun hv => hd hv.1
    exact hg
  | _ => cases h

theorem printed?_of_defined {store : Store} {n : Node} (h : n.isOperation = true) (hd : Defined store n) :
    n.printed? store = none := by
  cases n with
  | ident t name =>
    cases name with
    | str x =>
      obtain ⟨k, hk⟩ := Defined.ident.1 hd
      simp [Node.printed?, hk]
    | _ => cases h
  | _ => rfl

theorem gives_word {store : Store} (hs : store.InRange) {n : Node} (h : n.isOperation = true)
    (hd : Defined store n) : Gives store n (.int (n.word store).toInt) := by
  obtain ⟨v, hg, hv⟩ := computes_of_operation hs n h
  rcases hv with ⟨-, rfl⟩ | ⟨hn, -⟩
  · exact hg
  · exact absurd hd hn

/-! ## Sums, differences and products -/

theorem Node.isPolynomial_binary {t : Token} {l r : Node} {o : Json} (h : (Node.binary t l o r).isPolynomial = true) :
    ∃ s, o = .str s ∧ s ∈ ["+", "-", "*"] ∧ l.isPolynomial = true ∧ r.isPolynomial = true := by
  cases o with
  | str s =>
    simp only [isPolynomial, Bool.and_eq_true, List.contains_iff_mem] at h
    exact ⟨s, rfl, h⟩
  | _ => cases h

theorem gives_of_polynomial {store : Store} :
    ∀ n : Node, n.isPolynomial = true → Gives store n (.int (BitVec.ofInt 64 n.exact).toInt)
  | .int t k, _ => .int t k
  | .binary t l o r, h => by
    obtain ⟨o, rfl, ho, hl, hr⟩ := Node.isPolynomial_binary h
    have hgl : Gives store l _ := gives_of_polynomial l hl
    have hg := hgl.binary (gives_of_polynomial r hr) t (.str o)
    have hop : o ∈ Word.operators := List.subset_append_left _ [_, _, _, _, _, _, _, _, _, _] ho
    have hdiv : o ∉ Word.divisions := by
      simp only [List.mem_cons, List.not_mem_nil, or_false] at ho
      rcases ho with rfl | rfl | rfl <;> decide
    have happly : Value.applyInt o (BitVec.ofInt 64 l.exact).toInt (BitVec.ofInt 64 r.exact).toInt =
        .int (BitVec.ofInt 64 (Node.binary t l (.str o) r).exact).toInt := by
      rw [Value.applyInt_toInt hop fun hd => absurd hd hdiv]
      simp only [List.mem_cons, List.not_mem_nil, or_false] at ho
      rcases ho with rfl | rfl | rfl
      · rw [Node.exact, BitVec.ofInt_add]
        rfl
      · rw [Node.exact, Int.sub_eq_add_neg, BitVec.ofInt_add, BitVec.ofInt_neg, ← BitVec.sub_eq_add_neg]
        rfl
      · rw [Node.exact, BitVec.ofInt_mul]
        rfl
    rw [← happly]
    exact hg

/-! ## All trees of operators -/

/-- On a store of 64-bit values, a tree of numbers, names and binary operators gives an integer exactly if it is
defined, and that is its machine word. A single name that holds a printed value gives that value; all other trees give
none. Sums, differences and products of numbers give their exact value, brought into 64 bits. -/
theorem eval_operation :
    (∀ (n : Node) (store : Store), n.isOperation = true → store.InRange →
      (∀ k, Gives store n (.int k) ↔ Defined store n ∧ k = (n.word store).toInt) ∧
      (∀ v, Gives store n (.printed v) ↔ n.printed? store = some v) ∧
      (Gives store n .missing ↔ ¬ Defined store n ∧ n.printed? store = none)) ∧
    ∀ (n : Node) (store : Store), n.isPolynomial = true → Gives store n (.int (Word.wrap n.exact)) := by
  refine ⟨fun n store h hs => ?_, fun n store h => ?_⟩
  · by_cases hd : Defined store n
    · simp [(gives_word hs h hd).iff_eq, hd, printed?_of_defined h hd]
    · have hg := gives_of_not_defined hs h hd
      cases hp : n.printed? store with
      | none => simp [(hp ▸ hg).iff_eq, hd]
      | some w => simp [(hp ▸ hg).iff_eq, hd, eq_comm (a := w)]
  · rw [Word.wrap_eq_toInt]
    exact gives_of_polynomial n h

/-- `m / -1 - m % -1`, with the first divisor written as an unsigned word. -/
def lowestQuotient : Node :=
  let token : Token := Lexeme.eof.token
  let m : Node := .ident token (.str "m")
  .binary token (.binary token m (.str "/") (.int token 18446744073709551615)) (.str "-")
    (.binary token m (.str "%") (.int token (-1)))

/-- A product beyond 64 bits, less seven. -/
def wrappedProduct : Node :=
  let token : Token := Lexeme.eof.token
  .binary token (.binary token (.int token 4294967296) (.str "*") (.int token 4294967296)) (.str "-") (.int token 7)

theorem eval_operation_lowest :
    lowestQuotient.isOperation = true ∧ lowestStore.InRange ∧
    Gives lowestStore lowestQuotient (.int (-9223372036854775808)) ∧
    wrappedProduct.isPolynomial = true ∧ Gives lowestStore wrappedProduct (.int (-7)) := by
  have h : lowestQuotient.isOperation = true := by decide
  have hs : lowestStore.InRange := by decide
  have hp : wrappedProduct.isPolynomial = true := by decide
  have hd : Defined lowestStore lowestQuotient := by
    refine ⟨?_, ?_⟩
    · have hm : lowestStore.get? (.str "m") = some (.int (-9223372036854775808)) := by decide
      simp [lowestQuotient, Node.uses, hm]
    · have hne : ∀ (t : Token) (k : Int), (BitVec.ofInt 64 k).toInt ≠ 0 → ¬ Gives lowestStore (.int t k) (.int 0) :=
        fun t k hk hg => hk (Value.int.inj (hg.unique (.int t k))).symm
      have hdivisors : lowestQuotient.divisors =
          [.int Lexeme.eof.token 18446744073709551615, .int Lexeme.eof.token (-1)] := by decide
      rw [hdivisors]
      simp only [List.forall_mem_cons]
      exact ⟨hne _ _ (by decide), hne _ _ (by decide), List.forall_mem_nil _⟩
  refine ⟨h, hs, ?_, hp, eval_operation.2 wrappedProduct lowestStore hp⟩
  exact ((eval_operation.1 _ _ h hs).1 _).2 ⟨hd, by decide⟩

/-- The store that a program leaves which sets `x` to the value of a block with the statement `print 5`. -/
def printedStore : Store := ⟨[(.str "x", .printed (.int 5))]⟩

/-- A name can hold a printed value, and then gives neither an integer nor nothing. -/
theorem printed_name_not_missing :
    (run 0 8 (Tolerant.parse "x = if (1 == 1) \x7b\nprint 5\n\x7d") .empty).map Report.store = some printedStore ∧
    printedStore.InRange ∧ (Node.ident Lexeme.eof.token (.str "x")).isOperation = true ∧
    ¬ Defined printedStore (.ident Lexeme.eof.token (.str "x")) ∧
    ¬ Gives printedStore (.ident Lexeme.eof.token (.str "x")) .missing ∧
    Gives printedStore (.ident Lexeme.eof.token (.str "x")) (.printed (.int 5)) := by
  have hx : printedStore.get? (.str "x") = some (.printed (.int 5)) := by decide
  have hg : Gives printedStore (.ident Lexeme.eof.token (.str "x")) (.printed (.int 5)) := by
    have hident : Gives printedStore _ _ := .ident Lexeme.eof.token "x"
    rwa [hx] at hident
  refine ⟨by cbv, by decide, rfl, ?_, fun hm => ?_, hg⟩
  · rw [Defined.ident]
    rintro ⟨k, hk⟩
    cases hx.symm.trans hk
  · cases hg.unique hm

end LineLang
