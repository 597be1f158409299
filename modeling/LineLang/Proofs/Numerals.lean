import Mathlib
import LineLang.Number.Numeral
import LineLang.Proofs.Terminals

/-!
# Numerals

A numeral is read by cutting it at its underscores. Its grammar says the same without a scanner: blanks, perhaps a sign,
digits of any script with at most one underscore between two of them, and blanks. The value of a literal follows from
that grammar and from two limits, one on the number of digits and one on the number that they denote.

* `Text.IsDecimalDigit c d` : in one of the scripts, `c` is the digit `d`; no character is two digits;
* `Sign`, `Run`, `Form s factor ds` : the grammar of numerals;
* `Run.digits?`, `run_of_digits?`, `read_of_form`, `form_of_read` : what is read is what the grammar admits;
* `Denotes s n` : the text is a numeral of the number `n`, within both limits;
* `literalValue_of_form`, `literalValue_eq_iff` : the value of a numeral, and of any text;
* `literalValue_of_digits` : the value of a run of plain digits.
-/

namespace LineLang

/-! ## Digits of all scripts -/

namespace Text

def IsDecimalDigit (c : Char) (d : Nat) : Prop := d < 10 ∧ ∃ z ∈ zeros, c.toNat = z + d

/-- The digits of two scripts do not overlap. -/
theorem zeros_apart : ∀ a ∈ zeros, ∀ b ∈ zeros, a = b ∨ a + 10 ≤ b ∨ b + 10 ≤ a := by decide +kernel

theorem decimalDigit?_eq_some_iff {c : Char} {d : Nat} : decimalDigit? c = some d ↔ IsDecimalDigit c d := by
  unfold decimalDigit? IsDecimalDigit
  constructor
  · intro h
    obtain ⟨z, hz, rfl⟩ := Option.map_eq_some_iff.1 h
    have hrange := List.find?_some hz
    simp only [Bool.and_eq_true, decide_eq_true_eq] at hrange
    exact ⟨by omega, z, List.mem_of_find?_eq_some hz, by omega⟩
  · rintro ⟨hd, z, hmem, hc⟩
    have hsome : (zeros.find? fun z => decide (z ≤ c.toNat) && decide (c.toNat < z + 10)).isSome = true :=
      List.find?_isSome.2 ⟨z, hmem, by simp only [Bool.and_eq_true, decide_eq_true_eq]; omega⟩
    obtain ⟨z', hz'⟩ := Option.isSome_iff_exists.1 hsome
    have hrange := List.find?_some hz'
    simp only [Bool.and_eq_true, decide_eq_true_eq] at hrange
    -- the script that is found is the one of the digit
    have hsame := zeros_apart z' (List.mem_of_find?_eq_some hz') z hmem
    rw [hz', Option.map_some, show c.toNat - z' = d by omega]

theorem isDecimalDigit_of_isDigit {c : Char} (h : isDigit c = true) : IsDecimalDigit c (Decimal.digitValue c) := by
  simp only [isDigit, Bool.and_eq_true, decide_eq_true_eq] at h
  have hlow : 0x30 ≤ c.toNat := h.1
  have hhigh : c.toNat ≤ 0x39 := h.2
  exact ⟨by unfold Decimal.digitValue; omega, 0x30, by decide, by unfold Decimal.digitValue; omega⟩

/-- A digit is no blank, no underscore and no sign. -/
theorem IsDecimalDigit.plain {c : Char} {d : Nat} (h : IsDecimalDigit c d) :
    isBlank c = false ∧ c ≠ '_' ∧ c ≠ '+' ∧ c ≠ '-' := by
  have table : zeros.all (fun z => (List.range 10).all fun d => !isBlank (Char.ofNat (z + d)) &&
      decide (Char.ofNat (z + d) ∉ ['_', '+', '-'])) = true := by decide +kernel
  obtain ⟨hd, z, hmem, hc⟩ := h
  have hplain := List.all_eq_true.1 (List.all_eq_true.1 table z hmem) d (List.mem_range.2 hd)
  rw [← hc, Char.ofNat_toNat] at hplain
  simpa [and_assoc] using hplain

end Text

namespace Numeral

open Text (IsDecimalDigit isBlank decimalDigit?_eq_some_iff)

/-! ## The grammar -/

inductive Sign : List Char → Int → Prop where
  | none : Sign [] 1
  | plus : Sign ['+'] 1
  | minus : Sign ['-'] (-1)

/-- Digits, with at most one underscore between two of them. -/
inductive Run : List Char → List Nat → Prop where
  | last {c : Char} {d : Nat} (h : IsDecimalDigit c d) : Run [c] [d]
  | digit {c : Char} {d : Nat} {cs : List Char} {ds : List Nat} (h : IsDecimalDigit c d) (more : Run cs ds) :
    Run (c :: cs) (d :: ds)
  | bar {c : Char} {d : Nat} {cs : List Char} {ds : List Nat} (h : IsDecimalDigit c d) (more : Run cs ds) :
    Run (c :: '_' :: cs) (d :: ds)

/-- The text is a numeral with the sign `factor` and the digits `ds`, and blanks around it. -/
def Form (s : String) (factor : Int) (ds : List Nat) : Prop :=
  ∃ front mark run back, s.toList = front ++ (mark ++ (run ++ back)) ∧ (∀ c ∈ front, isBlank c = true) ∧
    Sign mark factor ∧ Run run ds ∧ ∀ c ∈ back, isBlank c = true

/-- The number that a sign and decimal digits denote. Mathlib's digits begin with the least significant one. -/
def number (factor : Int) (ds : List Nat) : Int := factor * (Nat.ofDigits 10 ds.reverse : Nat)

/-- The text is a numeral of the number `n`, which is not too large, and has not too many digits. -/
def Denotes (s : String) (n : Int) : Prop :=
  ∃ factor ds, Form s factor ds ∧ number factor ds = n ∧ ds.length ≤ 4300 ∧ n ≤ 2 ^ 63 - 1

/-! ## Runs of digits -/

theorem digits?_bar (cs : List Char) : digits? ('_' :: cs) = none := by
  simp [digits?, List.splitOn_cons_eq_if_modifyHead]

section Digits
variable {c : Char} {d : Nat} (h : IsDecimalDigit c d)
include h

theorem digits?_singleton : digits? [c] = some [d] := by
  have hbar : c ≠ '_' := h.plain.2.1
  simp [digits?, List.splitOn_cons_eq_if_modifyHead, hbar, decimalDigit?_eq_some_iff.2 h]

theorem digits?_cons_bar (cs : List Char) : digits? (c :: '_' :: cs) = (digits? cs).map (d :: ·) := by
  have hbar : c ≠ '_' := h.plain.2.1
  have hsplit : (c :: '_' :: cs).splitOn '_' = [c] :: cs.splitOn '_' := by
    simp [List.splitOn_cons_eq_if_modifyHead, hbar]
  simp [digits?, hsplit, decimalDigit?_eq_some_iff.2 h]

theorem digits?_cons {c' : Char} (hc' : c' ≠ '_') (cs : List Char) :
    digits? (c :: c' :: cs) = (digits? (c' :: cs)).map (d :: ·) := by
  have hbar : c ≠ '_' := h.plain.2.1
  obtain ⟨group, groups, hsplit⟩ := List.exists_cons_of_ne_nil (List.splitOn_ne_nil '_' cs)
  simp [digits?, List.splitOn_cons_eq_if_modifyHead, hbar, hc', hsplit, decimalDigit?_eq_some_iff.2 h]

end Digits

theorem Run.digits? {run : List Char} {ds : List Nat} (h : Run run ds) : digits? run = some ds := by
  induction h with
  | last h => exact digits?_singleton h
  | digit h more ih =>
    cases more with
    | last h' => rw [digits?_cons h h'.plain.2.1, ih, Option.map_some]
    | digit h' _ => rw [digits?_cons h h'.plain.2.1, ih, Option.map_some]
    | bar h' _ => rw [digits?_cons h h'.plain.2.1, ih, Option.map_some]
  | bar h more ih => rw [digits?_cons_bar h, ih, Option.map_some]

/-- A digit stands at the front. -/
def StartsDigits (cs : List Char) : Prop := ∃ c d rest, cs = c :: rest ∧ IsDecimalDigit c d

theorem Run.startsDigits {run : List Char} {ds : List Nat} (h : Run run ds) (rest : List Char) :
    StartsDigits (run ++ rest) := by
  cases h with
  | last h => exact ⟨_, _, _, rfl, h⟩
  | digit h _ => exact ⟨_, _, _, rfl, h⟩
  | bar h _ => exact ⟨_, _, _, rfl, h⟩

theorem isDigitOrBar_iff {c : Char} : isDigitOrBar c = true ↔ (∃ d, IsDecimalDigit c d) ∨ c = '_' := by
  simp only [isDigitOrBar, Bool.or_eq_true, Option.isSome_iff_exists, decide_eq_true_eq, decimalDigit?_eq_some_iff]

theorem Run.lt_ten {run : List Char} {ds : List Nat} (h : Run run ds) : ∀ d ∈ ds, d < 10 := by
  induction h with
  | last h => exact List.forall_mem_singleton.2 h.1
  | digit h _ ih => exact List.forall_mem_cons.2 ⟨h.1, ih⟩
  | bar h _ ih => exact List.forall_mem_cons.2 ⟨h.1, ih⟩

theorem Run.isDigitOrBar {run : List Char} {ds : List Nat} (h : Run run ds) : ∀ c ∈ run, isDigitOrBar c = true := by
  induction h with
  | last h => exact List.forall_mem_singleton.2 (isDigitOrBar_iff.2 (.inl ⟨_, h⟩))
  | digit h _ ih => exact List.forall_mem_cons.2 ⟨isDigitOrBar_iff.2 (.inl ⟨_, h⟩), ih⟩
  | bar h _ ih =>
    exact List.forall_mem_cons.2 ⟨isDigitOrBar_iff.2 (.inl ⟨_, h⟩),
      List.forall_mem_cons.2 ⟨isDigitOrBar_iff.2 (.inr rfl), ih⟩⟩

theorem run_of_digits? {run : List Char} (hrun : ∀ c ∈ run, isDigitOrBar c = true) :
    ∀ {ds : List Nat}, digits? run = some ds → Run run ds := by
  -- a digit and an underscore behind it are taken together
  induction run using List.twoStepInduction with
  | nil =>
    intro ds h
    cases h
  | singleton c =>
    intro ds h
    rcases isDigitOrBar_iff.1 (hrun c List.mem_cons_self) with ⟨d, hd⟩ | rfl
    · rw [digits?_singleton hd] at h
      exact Option.some.inj h ▸ .last hd
    · rw [digits?_bar] at h
      cases h
  | cons_cons c c' cs ih ih' =>
    intro ds h
    obtain ⟨hc, hrun'⟩ := List.forall_mem_cons.1 hrun
    obtain ⟨hc', hcs⟩ := List.forall_mem_cons.1 hrun'
    rcases isDigitOrBar_iff.1 hc with ⟨d, hd⟩ | rfl
    · by_cases hbar : c' = '_'
      · subst hbar
        rw [digits?_cons_bar hd] at h
        obtain ⟨ds', hds', rfl⟩ := Option.map_eq_some_iff.1 h
        exact .bar hd (ih hcs hds')
      · rw [digits?_cons hd hbar] at h
        obtain ⟨ds', hds', rfl⟩ := Option.map_eq_some_iff.1 h
        exact .digit hd (ih' c' hrun' hds')
    · rw [digits?_bar] at h
      cases h

/-! ## Numerals -/

theorem Sign.sign {mark rest : List Char} {factor : Int} (h : Sign mark factor) (hrest : StartsDigits rest) :
    sign (mark ++ rest) = (factor, rest) := by
  cases h with
  | none =>
    obtain ⟨c, d, cs, rfl, hc⟩ := hrest
    obtain ⟨-, -, hplus, hminus⟩ := hc.plain
    rw [List.nil_append]
    unfold Numeral.sign
    split
    · next heq => exact absurd (List.cons.inj heq).1 hminus
    · next heq => exact absurd (List.cons.inj heq).1 hplus
    · rfl
  | plus => rfl
  | minus => rfl

theorem exists_sign (cs : List Char) : ∃ mark, cs = mark ++ (sign cs).2 ∧ Sign mark (sign cs).1 := by
  unfold sign
  split
  · exact ⟨['-'], rfl, .minus⟩
  · exact ⟨['+'], rfl, .plus⟩
  · exact ⟨[], rfl, .none⟩

/-- The front of a numeral ends where its sign or its first digit stands. -/
theorem Sign.head {mark rest : List Char} {factor : Int} (h : Sign mark factor) (hrest : StartsDigits rest) :
    ∀ c ∈ (mark ++ rest).head?, isBlank c = false := by
  intro x hx
  cases h with
  | none =>
    obtain ⟨c, d, cs, rfl, hc⟩ := hrest
    rw [← Option.some.inj hx]
    exact hc.plain.1
  | plus =>
    rw [← Option.some.inj hx]
    decide
  | minus =>
    rw [← Option.some.inj hx]
    decide

theorem isDigitOrBar_of_isBlank {c : Char} (h : isBlank c = true) : isDigitOrBar c = false := by
  refine Bool.eq_false_iff.2 fun hc => ?_
  rcases isDigitOrBar_iff.1 hc with ⟨d, hd⟩ | rfl
  · rw [hd.plain.1] at h
    cases h
  · cases h

variable {s : String} {factor : Int} {ds : List Nat} {n : Int}

theorem number_eq (factor : Int) (ds : List Nat) : number factor ds = factor * ofDigits ds := by
  rw [number, Nat.ofDigits_eq_foldr, List.foldr_reverse, ofDigits]
  simp only [Nat.cast_id, Nat.add_comm]

theorem Sign.natAbs {mark : List Char} (h : Sign mark factor) : factor.natAbs = 1 := by
  cases h <;> rfl

/-- A number is below the power of ten for its digits. -/
theorem Form.natAbs_lt (h : Form s factor ds) : (number factor ds).natAbs < 10 ^ ds.length := by
  obtain ⟨front, mark, run, back, -, -, hmark, hrun, -⟩ := h
  have hdigits : ∀ d ∈ ds.reverse, d < 10 := fun d hd => hrun.lt_ten d (List.mem_reverse.1 hd)
  have hlt := Nat.ofDigits_lt_base_pow_length (by decide : 1 < 10) hdigits
  rw [List.length_reverse] at hlt
  rwa [number, Int.natAbs_mul, hmark.natAbs, Nat.one_mul, Int.natAbs_natCast]

theorem read_of_form (h : Form s factor ds) :
    read s = if 4300 < ds.length then .error (.tooLong ds.length) else .ok (number factor ds) := by
  obtain ⟨front, mark, run, back, htext, hfront, hmark, hrun, hback⟩ := h
  have hstart : StartsDigits (run ++ back) := hrun.startsDigits back
  have hdrop : s.toList.dropWhile isBlank = mark ++ (run ++ back) := by
    rw [htext, Strict.dropWhile_run hfront (hmark.head hstart)]
  have htake : (run ++ back).takeWhile isDigitOrBar = run :=
    Strict.takeWhile_run hrun.isDigitOrBar fun c hc => isDigitOrBar_of_isBlank (hback c (List.mem_of_head? hc))
  unfold read
  rw [hdrop, hmark.sign hstart]
  dsimp only
  rw [htake, hrun.digits?, List.drop_left, List.all_eq_true.2 hback, number_eq]
  rfl

theorem form_of_read (h : read s = .ok n) :
    ∃ factor ds, Form s factor ds ∧ number factor ds = n ∧ ds.length ≤ 4300 := by
  unfold read at h
  split at h
  next factor body hsign =>
  dsimp only at h
  split at h
  · cases h
  · next ds hds =>
    split at h
    · cases h
    split at h
    · next hlen hback =>
      obtain ⟨mark, hbody, hmark⟩ := exists_sign (s.toList.dropWhile isBlank)
      rw [hsign] at hbody hmark
      refine ⟨factor, ds, ⟨s.toList.takeWhile isBlank, mark, body.takeWhile isDigitOrBar, body.dropWhile isDigitOrBar,
        ?_, fun c hc => List.mem_takeWhile_imp hc, hmark, run_of_digits? (fun c hc => List.mem_takeWhile_imp hc) hds,
        ?_⟩, (number_eq factor ds).trans (Except.ok.inj h), Nat.not_lt.1 hlen⟩
      · rw [List.takeWhile_append_dropWhile, ← hbody, List.takeWhile_append_dropWhile]
      · rw [Strict.drop_length_takeWhile] at hback
        exact List.all_eq_true.1 hback
    · cases h

/-! ## The value of a literal -/

theorem literalValue_of_error {e : Fault} (h : read s = .error e) : literalValue s = 0 := by
  unfold literalValue
  split
  · rfl
  · next hn =>
    rw [h] at hn
    cases hn

theorem literalValue_of_ok (h : read s = .ok n) : literalValue s = if n ≤ 2 ^ 63 - 1 then n else 0 := by
  unfold literalValue
  split
  · next he =>
    rw [h] at he
    cases he
  · next m hm =>
    obtain rfl : n = m := Except.ok.inj (h.symm.trans hm)
    split <;> split <;> omega

theorem literalValue_of_form (h : Form s factor ds) :
    literalValue s = if ds.length ≤ 4300 ∧ number factor ds ≤ 2 ^ 63 - 1 then number factor ds else 0 := by
  have hread := read_of_form h
  by_cases hlen : ds.length ≤ 4300
  · rw [if_neg (Nat.not_lt.2 hlen)] at hread
    rw [literalValue_of_ok hread]
    exact if_congr (iff_and_self.2 fun _ => hlen) rfl rfl
  · rw [if_pos (Nat.not_le.1 hlen)] at hread
    rw [literalValue_of_error hread, if_neg fun h => hlen h.1]

theorem literalValue_of_denotes (h : Denotes s n) : literalValue s = n := by
  obtain ⟨factor, ds, hform, rfl, hlimits⟩ := h
  rw [literalValue_of_form hform, if_pos hlimits]

theorem literalValue_of_not_denotes (h : ∀ n, ¬ Denotes s n) : literalValue s = 0 := by
  cases hread : read s with
  | error e => exact literalValue_of_error hread
  | ok n =>
    obtain ⟨factor, ds, hform, -, -⟩ := form_of_read hread
    rw [literalValue_of_form hform, if_neg fun hlimits => h _ ⟨factor, ds, hform, rfl, hlimits⟩]

theorem literalValue_eq_iff : literalValue s = n ↔ Denotes s n ∨ n = 0 ∧ ∀ m, ¬ Denotes s m := by
  constructor
  · rintro rfl
    by_cases h : ∃ m, Denotes s m
    · obtain ⟨m, hm⟩ := h
      rw [literalValue_of_denotes hm]
      exact .inl hm
    · exact .inr ⟨literalValue_of_not_denotes (not_exists.1 h), not_exists.1 h⟩
  · rintro (h | ⟨rfl, h⟩)
    · exact literalValue_of_denotes h
    · exact literalValue_of_not_denotes h

/-! ## Plain digits -/

open Text.Decimal (digitsOf digitValue valueOf)

theorem run_of_digits {cs : List Char} (hne : cs ≠ []) (h : ∀ c ∈ cs, isDigit c = true) :
    Run cs (cs.map digitValue) := by
  induction cs with
  | nil => exact absurd rfl hne
  | cons c cs ih =>
    obtain ⟨hc, hcs⟩ := List.forall_mem_cons.1 h
    cases cs with
    | nil => exact .last (Text.isDecimalDigit_of_isDigit hc)
    | cons c' cs => exact .digit (Text.isDecimalDigit_of_isDigit hc) (ih (List.cons_ne_nil c' cs) hcs)

theorem form_of_digits (hne : s.toList ≠ []) (h : ∀ c ∈ s.toList, isDigit c = true) :
    Form s 1 (s.toList.map digitValue) :=
  ⟨[], [], s.toList, [], by simp, List.forall_mem_nil _, .none, run_of_digits hne h, List.forall_mem_nil _⟩

theorem number_map_digitValue (cs : List Char) : number 1 (cs.map digitValue) = valueOf cs := by
  rw [number_eq, Int.one_mul, ofDigits, valueOf, List.foldl_map]

theorem literalValue_of_digits (hne : s.toList ≠ []) (h : ∀ c ∈ s.toList, isDigit c = true) : literalValue s =
    if s.length ≤ 4300 ∧ valueOf s.toList ≤ 2 ^ 63 - 1 then (valueOf s.toList : Int) else 0 := by
  rw [literalValue_of_form (form_of_digits hne h), number_map_digitValue, List.length_map, String.length_toList]
  exact if_congr (and_congr_right fun _ => by omega) rfl rfl

end Numeral

end LineLang
