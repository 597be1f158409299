import Mathlib
import LineLang.Proofs.Agreement
import LineLang.Proofs.Evaluation
import LineLang.Proofs.JsonText
import LineLang.Proofs.Numerals
import LineLang.Source

/-!
# The numbers that literals stand for

* `literal zeros n` : a number as it is written in a program, with leading zeros;
* `Means text v` : a program that is one literal has the tree of the number `v`, and the value `v`;
* `literal_values` : a literal has the value that it denotes, and zero if it denotes none.
-/

namespace LineLang.Numeral

open Text.Decimal (digitsOf valueOf)

/-! ## Literals of programs -/

def literal (zeros n : Nat) : String := String.ofList (List.replicate zeros '0' ++ digitsOf n)

theorem toList_literal (zeros n : Nat) : (literal zeros n).toList = List.replicate zeros '0' ++ digitsOf n :=
  String.toList_ofList

theorem length_literal (zeros n : Nat) : (literal zeros n).length = zeros + (digitsOf n).length := by
  rw [← String.length_toList, toList_literal, List.length_append, List.length_replicate]

theorem literal_ne_nil (zeros n : Nat) : (literal zeros n).toList ≠ [] := by
  obtain ⟨c, cs, hcs, -⟩ := Text.Decimal.digitsOf_lead n
  rw [toList_literal, hcs]
  exact List.append_ne_nil_of_right_ne_nil _ (List.cons_ne_nil c cs)

theorem isDigit_literal (zeros n : Nat) : ∀ c ∈ (literal zeros n).toList, isDigit c = true := by
  have all : ∀ c ∈ "0123456789".toList, isDigit c = true := Text.forall_mem_of_all (by decide)
  rw [toList_literal]
  refine List.forall_mem_append.2 ⟨fun c hc => ?_, fun c hc => all c (Text.Decimal.digitsOf_mem n c hc)⟩
  rw [List.eq_of_mem_replicate hc]
  rfl

/-- Leading zeros do not count. -/
theorem valueOf_literal (zeros n : Nat) : valueOf (literal zeros n).toList = n := by
  rw [toList_literal]
  induction zeros with
  | zero => exact Text.Decimal.valueOf_digitsOf n
  | succ zeros ih => exact ih

/-! ## Programs of one literal -/

/-- The tree of a program that is the number `v`, written as `text`. -/
def sole (text : String) (v : Int) : Node := .root [.expr ⟨.num, .str text⟩ (.int ⟨.num, .str text⟩ v)]

structure Means (text : String) (v : Int) : Prop where
  value : literalValue text = v
  parsed : ∀ manner : Manner, manner.parse text = .ok (sole text v)
  evaluated : ∀ level state, Ends level (sole text v) state (.ok (.int v)) state

theorem splits_of_digits {text : String} (hne : text.toList ≠ []) (h : ∀ c ∈ text.toList, isDigit c = true) :
    Strict.Splits text.toList [⟨.num, text⟩] := by
  have hterminal : Strict.IsTerminal ⟨.num, text⟩ := ⟨hne, h⟩
  have hlongest : Strict.Longest ⟨.num, text⟩ [] := by
    intro u _ hprefix
    rw [List.append_nil] at hprefix
    exact hprefix.length_le
  have hsplits : Strict.Splits ([] ++ (text.toList ++ [])) [⟨.num, text⟩] :=
    .next (List.forall_mem_nil _) hterminal hlongest (.done (List.forall_mem_nil _))
  rwa [List.nil_append, List.append_nil] at hsplits

theorem parse_of_digits {text : String} (hne : text.toList ≠ []) (h : ∀ c ∈ text.toList, isDigit c = true)
    (manner : Manner) : manner.parse text = .ok (sole text (literalValue text)) := by
  have hsplits := splits_of_digits hne h
  cases manner with
  | tolerant =>
    have hreads : Tolerant.ReadsLines [⟨.num, text⟩] [.expr ⟨.num, .str text⟩ (Tolerant.integer ⟨.num, text⟩)] [] :=
      .cons (.expr (.number rfl) (show Kind.lowest < 2 by decide) (.inr ⟨rfl, .inl rfl⟩)) (.nil (.inl rfl))
    show Except.ok (Node.root (Tolerant.programOf (lexemes text.toList))) = _
    rw [Strict.lexemes_of_splits hsplits, List.flatMap_singleton, Strict.pieces_of_ne (by simp),
      Tolerant.programOf_of_lines hreads]
    rfl
  | strict =>
    exact Strict.parse_eq_ok_iff.2
      ⟨.body none (.lastLine (.expr ((Grammar.Derivation.number ⟨⟨.num, text⟩, rfl⟩).raise 6))), hsplits, rfl⟩

theorem ends_sole {text : String} {v : Int} (h : Word.InRange v) (level : Int) (state : State) :
    Ends level (sole text v) state (.ok (.int v)) state := by
  refine ⟨3, ?_⟩
  have heval : (eval level 3 (sole text v)).run.run state = some (.ok (.ofInt v), state) := rfl
  rw [heval, Value.ofInt, Word.wrap_of_inRange h]

theorem literalValue_literal (zeros n : Nat) : literalValue (literal zeros n) =
    if (literal zeros n).length ≤ 4300 ∧ n ≤ 2 ^ 63 - 1 then (n : Int) else 0 := by
  rw [literalValue_of_digits (literal_ne_nil zeros n) (isDigit_literal zeros n), valueOf_literal]

theorem means_literal {zeros n : Nat} {v : Int} (hv : literalValue (literal zeros n) = v) (hrange : Word.InRange v) :
    Means (literal zeros n) v where
  value := hv
  parsed := hv ▸ parse_of_digits (literal_ne_nil zeros n) (isDigit_literal zeros n)
  evaluated := ends_sole hrange

/-- The value of a text is the number that it denotes within both limits, and zero if there is none, as for every
numeral of a larger number. So in a program, a number below `2 ^ 63` that is written with at most 4300 digits, leading
zeros counted, stands for itself, and evaluating it does not change it. Any other number stands for zero. -/
theorem literal_values :
    (∀ (s : String) (v : Int), literalValue s = v ↔ Denotes s v ∨ v = 0 ∧ ∀ n, ¬ Denotes s n) ∧
    (∀ (s : String) (factor : Int) (ds : List Nat), Form s factor ds → 2 ^ 63 - 1 < number factor ds →
      literalValue s = 0) ∧
    (∀ zeros n : Nat, n ≤ 2 ^ 63 - 1 → (literal zeros n).length ≤ 4300 → Means (literal zeros n) n) ∧
    ∀ zeros n : Nat, 2 ^ 63 - 1 < n ∨ 4300 < (literal zeros n).length → Means (literal zeros n) 0 := by
  refine ⟨fun s v => literalValue_eq_iff, fun s factor ds hform hlarge => ?_, fun zeros n hle hlen => ?_,
    fun zeros n hout => ?_⟩
  · rw [literalValue_of_form hform, if_neg fun h => absurd h.2 (Int.not_le.2 hlarge)]
  · refine means_literal ?_ ?_
    · rw [literalValue_literal, if_pos ⟨hlen, hle⟩]
    · unfold Word.InRange Word.least Word.greatest
      omega
  · refine means_literal ?_ (by decide)
    rw [literalValue_literal, if_neg (by omega)]

/-- The greatest number that a literal can have needs 19 digits, so 4281 zeros can stand in front of it. -/
theorem literal_values_limits :
    Denotes "\u2003-\u0663_4\t" (-34) ∧ literalValue "\u2003-\u0663_4\t" = -34 ∧
    Means (literal 4281 9223372036854775807) 9223372036854775807 ∧
    Means (literal 4282 9223372036854775807) 0 ∧ Means (literal 0 9223372036854775808) 0 := by
  obtain ⟨hvalue, -, hsmall, hlarge⟩ := literal_values
  have hdenotes : Denotes "\u2003-\u0663_4\t" (-34) := by
    have three : Text.IsDecimalDigit '\u0663' 3 := ⟨by decide, 0x660, by decide, by decide⟩
    have four : Text.IsDecimalDigit '4' 4 := ⟨by decide, 0x30, by decide, by decide⟩
    exact ⟨-1, [3, 4], ⟨['\u2003'], ['-'], ['\u0663', '_', '4'], ['\t'], by decide, List.all_eq_true.1 (by decide),
      .minus, .bar three (.last four), List.all_eq_true.1 (by decide)⟩, by decide, by decide, by decide⟩
  have hlen : (digitsOf 9223372036854775807).length = 19 := by cbv
  exact ⟨hdenotes, (hvalue _ _).2 (.inl hdenotes),
    hsmall 4281 9223372036854775807 (by decide) (by rw [length_literal, hlen]),
    hlarge 4282 9223372036854775807 (.inr (by rw [length_literal, hlen]; decide)),
    hlarge 0 9223372036854775808 (.inl (by decide))⟩

end LineLang.Numeral
