import Mathlib.Algebra.Group.Nat.Defs
import LineLang.Json.Reader
import LineLang.Json.Writer

/-!
# JSON texts read back

A datum is read back from its text, in either layout.

* `Json.Plain j` : the data for which this is shown. Their numbers are integers that a text may hold, and the names of
  the fields of an object differ;
* `Json.textBody_escape`, `Json.number_writeNumber` : texts and integers, with what stands behind them as a parameter;
* `Json.reads_of_plain` : any plain datum, at any level and with enough fuel;
* `Json.read_write` : whole texts;
* `Json.carriageReturn_not_mem_writeAt` : a text holds no carriage return, so its line ends are never rewritten.
-/

namespace LineLang.Text

/-- Decides a statement about the characters of a list by running through them. -/
theorem forall_mem_of_all {p : Char → Prop} [DecidablePred p] {cs : List Char}
    (h : cs.all (fun c => decide (p c)) = true) : ∀ c ∈ cs, p c :=
  fun c hc => of_decide_eq_true (List.all_eq_true.1 h c hc)

theorem length_hexDigits (w n : Nat) : (hexDigits w n).length = w := by
  simp [hexDigits]

namespace Decimal

theorem digit_spec {n : Nat} (h : n < 10) :
    Json.isDigit (digit n) = true ∧ digit n ∈ "0123456789".toList ∧ (digit n = '0' → n = 0) := by
  have all : ∀ k : Fin 10, Json.isDigit (digit k) = true ∧ digit k ∈ "0123456789".toList ∧
      (digit k = '0' → k.val = 0) := by decide
  exact all ⟨n, h⟩

theorem digitsOf_induction {P : Nat → List Char → Prop} (one : ∀ n, n < 10 → P n [digit n])
    (more : ∀ n, 10 ≤ n → P (n / 10) (digitsOf (n / 10)) → P n (digitsOf (n / 10) ++ [digit (n % 10)])) (n : Nat) :
    P n (digitsOf n) := by
  induction n using Nat.strongRecOn with
  | _ n ih =>
    rw [digitsOf]
    split
    · next h => exact one n h
    · next h => exact more n (by omega) (ih (n / 10) (by omega))

theorem digitsOf_mem (n : Nat) : ∀ c ∈ digitsOf n, c ∈ "0123456789".toList := by
  refine digitsOf_induction (P := fun _ ds => ∀ c ∈ ds, c ∈ "0123456789".toList) (fun n h c hc => ?_)
    (fun n _ ih c hc => ?_) n
  · rw [List.mem_singleton.1 hc]
    exact (digit_spec h).2.1
  · rcases List.mem_append.1 hc with hc | hc
    · exact ih c hc
    · rw [List.mem_singleton.1 hc]
      exact (digit_spec (Nat.mod_lt n (by omega))).2.1

/-- The first digit is a zero for the number zero only. -/
theorem digitsOf_lead (n : Nat) : ∃ c cs, digitsOf n = c :: cs ∧ (c = '0' → n = 0 ∧ cs = []) := by
  refine digitsOf_induction (P := fun n ds => ∃ c cs, ds = c :: cs ∧ (c = '0' → n = 0 ∧ cs = []))
    (fun n h => ⟨digit n, [], rfl, fun h0 => ⟨(digit_spec h).2.2 h0, rfl⟩⟩) (fun n hn ih => ?_) n
  obtain ⟨c, cs, hcs, h0⟩ := ih
  refine ⟨c, cs ++ [digit (n % 10)], by rw [hcs]; rfl, fun hc => ?_⟩
  obtain ⟨hz, -⟩ := h0 hc
  omega

theorem length_digitsOf_le {k n : Nat} (hk : 0 < k) (h : n < 10 ^ k) : (digitsOf n).length ≤ k := by
  induction k generalizing n with
  | zero => exact absurd hk (Nat.lt_irrefl 0)
  | succ k ih =>
    rw [digitsOf]
    split
    · exact Nat.le_add_left 1 k
    · next hn =>
      rw [Nat.pow_succ] at h
      have hk : k ≠ 0 := by
        rintro rfl
        omega
      have := ih (Nat.pos_of_ne_zero hk) (show n / 10 < 10 ^ k by omega)
      rw [List.length_append, List.length_singleton]
      omega

end Decimal

end LineLang.Text

namespace LineLang.Json

open Text.Decimal (digitsOf)

/-! ## Texts -/

theorem hexFour?_hexDigits {n : Nat} (h : n < 0x20) : hexFour? (Text.hexDigits 4 n) = some n := by
  have all : ∀ k : Fin 0x20, hexFour? (Text.hexDigits 4 k) = some k.val := by decide
  exact all ⟨n, h⟩

/-- The escape of a control character, which is no half of a pair. At least a quote stands behind it. -/
theorem unicodeEscape_hexDigits {n : Nat} (h : n < 0x20) (c : Char) (cs : List Char) :
    unicodeEscape ('u' :: (Text.hexDigits 4 n ++ c :: cs)) = .ok (Char.ofNat n, 5) := by
  have hlen := Text.length_hexDigits 4 n
  have hh : isHigh n = false := by simp [isHigh]; omega
  have hl : isLow n = false := by simp [isLow]; omega
  have hchar : charOf n = Char.ofNat n := by simp [charOf, hh, hl]
  unfold unicodeEscape
  simp only [List.drop_succ_cons, List.drop_zero, List.take_left' hlen, List.drop_left' hlen, hexFour?_hexDigits h,
    hh, Bool.false_and, Bool.false_eq_true, if_false, hchar]
  split <;> rfl

/-- The three ways in which a character is written: by a letter, by its number, or as it is. -/
theorem escape_cases (c : Char) :
    (∃ e, e ≠ 'u' ∧ unescape? e = some c ∧ escape c = ['\\', e]) ∨
    (c.toNat < 0x20 ∧ escape c = '\\' :: 'u' :: Text.hexDigits 4 c.toNat) ∨
    (c ≠ '\x22' ∧ c ≠ '\\' ∧ ¬c.toNat < 0x20 ∧ escape c = [c]) := by
  by_cases hletter : c ∈ ['\x22', '\\', '\n', '\r', '\t', '\x0c', '\x08']
  · have all : ∀ c ∈ ['\x22', '\\', '\n', '\r', '\t', '\x0c', '\x08'],
        (escape c).getD 1 'u' ≠ 'u' ∧ unescape? ((escape c).getD 1 'u') = some c ∧
          escape c = ['\\', (escape c).getD 1 'u'] := Text.forall_mem_of_all (by decide)
    exact .inl ⟨_, all c hletter⟩
  · simp only [List.mem_cons, List.not_mem_nil, or_false, not_or] at hletter
    obtain ⟨hq, hb, hn, hr, ht, hf, hb'⟩ := hletter
    unfold escape
    rw [if_neg hq, if_neg hb, if_neg hn, if_neg hr, if_neg ht, if_neg hf, if_neg hb']
    by_cases hc : c.toNat < 0x20
    · exact .inr (.inl ⟨hc, if_pos hc⟩)
    · exact .inr (.inr ⟨hq, hb, hc, if_neg hc⟩)

theorem textBody_escape (start : Nat) (s rest : List Char) :
    textBody start (s.flatMap escape ++ '\x22' :: rest) = .ok (s, rest) := by
  induction s with
  | nil =>
    rw [List.flatMap_nil, List.nil_append, textBody.eq_def]
    rfl
  | cons c s ih =>
    rw [List.flatMap_cons, List.append_assoc, textBody.eq_def]
    rcases escape_cases c with ⟨e, he, hx, hc⟩ | ⟨hn, hc⟩ | ⟨hq, hb, hn, hc⟩
    · simp only [hc, List.cons_append, List.nil_append, if_neg he, hx, ih]
      rfl
    · -- what follows the four digits is not empty, as the escape requires
      obtain ⟨d, ds, hd⟩ : ∃ d ds, s.flatMap escape ++ '\x22' :: rest = d :: ds :=
        List.exists_cons_of_ne_nil (by simp)
      have hlen := Text.length_hexDigits 4 c.toNat
      rw [hd] at ih ⊢
      simp only [hc, List.cons_append, if_true, unicodeEscape_hexDigits hn, bind, Except.bind, List.drop_left' hlen,
        ih, Char.ofNat_toNat]
      rfl
    · simp only [hc, List.cons_append, List.nil_append, if_neg hq, if_neg hb, if_neg hn, ih]
      rfl

/-! ## Integers -/

/-- No character that would prolong a number stands at the front. -/
def Stops (rest : List Char) : Prop :=
  ∀ c ∈ rest.head?, isDigit c = false ∧ c ≠ '.' ∧ c ≠ 'e' ∧ c ≠ 'E'

theorem stops_nil : Stops [] := by simp [Stops]

theorem stops_cons {c : Char} (h : c ∈ [',', ']', '\x7d', '\n']) (cs : List Char) : Stops (c :: cs) := by
  have all : ∀ c ∈ [',', ']', '\x7d', '\n'], isDigit c = false ∧ c ≠ '.' ∧ c ≠ 'e' ∧ c ≠ 'E' :=
    Text.forall_mem_of_all (by decide)
  intro d hd
  rw [List.head?_cons, Option.mem_some_iff] at hd
  exact hd ▸ all c h

theorem isDigit_digitsOf {n : Nat} : ∀ c ∈ digitsOf n, isDigit c = true := by
  have all : ∀ c ∈ "0123456789".toList, isDigit c = true := Text.forall_mem_of_all (by decide)
  exact fun c hc => all c (Text.Decimal.digitsOf_mem n c hc)

theorem Stops.takeWhile {rest : List Char} (h : Stops rest) : rest.takeWhile isDigit = [] := by
  cases rest with
  | nil => rfl
  | cons c cs => rw [List.takeWhile_cons_of_neg (by simp [(h c rfl).1])]

theorem Stops.dropWhile {rest : List Char} (h : Stops rest) : rest.dropWhile isDigit = rest := by
  cases rest with
  | nil => rfl
  | cons c cs => rw [List.dropWhile_cons_of_neg (by simp [(h c rfl).1])]

theorem Stops.fraction {rest : List Char} (h : Stops rest) : fraction rest = ([], rest) := by
  unfold Json.fraction
  split
  · next d cs => exact absurd rfl (h '.' rfl).2.1
  · rfl

theorem Stops.exponent {rest : List Char} (h : Stops rest) : exponent rest = (none, rest) := by
  cases rest with
  | nil => rfl
  | cons c cs => simp [Json.exponent, (h c rfl).2.2]

theorem integerPart?_digitsOf (n : Nat) {rest : List Char} (h : Stops rest) :
    integerPart? (digitsOf n ++ rest) = some (digitsOf n, rest) := by
  obtain ⟨c, cs, hcs, h0⟩ := Text.Decimal.digitsOf_lead n
  have hdigits : ∀ d ∈ c :: cs, isDigit d = true := hcs ▸ isDigit_digitsOf
  obtain ⟨hc, hds⟩ := List.forall_mem_cons.1 hdigits
  rw [hcs, List.cons_append]
  unfold integerPart?
  split
  · next _ heq =>
    obtain ⟨rfl, rfl⟩ := List.cons.inj heq
    obtain ⟨-, rfl⟩ := h0 rfl
    rfl
  · next _ heq =>
    obtain ⟨rfl, rfl⟩ := List.cons.inj heq
    rw [if_pos hc, List.takeWhile_append_of_pos hds, List.dropWhile_append_of_pos hds, h.takeWhile, h.dropWhile,
      List.append_nil]
  · next heq => exact absurd heq (List.cons_ne_nil c _)

/-- An integer whose digits a text may hold. -/
def Holds (n : Int) : Prop := (digitsOf n.natAbs).length ≤ Numeral.digitLimit

theorem number_minus {n : Nat} (hn : (digitsOf n).length ≤ Numeral.digitLimit) {rest : List Char} (h : Stops rest) :
    number ('-' :: (digitsOf n ++ rest)) = .ok (.int (-(n : Int)), rest) := by
  unfold number
  simp only [integerPart?_digitsOf n h, h.fraction, h.exponent, List.isEmpty_nil, Option.isNone_none, Bool.and_self,
    if_true, if_neg (Nat.not_lt.2 hn), Text.Decimal.valueOf_digitsOf]

theorem number_digitsOf {n : Nat} (hn : (digitsOf n).length ≤ Numeral.digitLimit) {rest : List Char}
    (h : Stops rest) : number (digitsOf n ++ rest) = .ok (.int n, rest) := by
  obtain ⟨c, cs, hcs, -⟩ := Text.Decimal.digitsOf_lead n
  have hminus : c ≠ '-' := by
    rintro rfl
    exact absurd (isDigit_digitsOf _ (hcs ▸ List.mem_cons_self)) (by decide)
  unfold number
  split
  next negative body hsign =>
    have hbody : (negative, body) = (false, digitsOf n ++ rest) := by
      rw [← hsign, hcs, List.cons_append]
      split
      · next heq => exact absurd (List.cons.inj heq).1 hminus
      · rfl
    obtain ⟨rfl, rfl⟩ := Prod.mk.inj hbody
    simp only [integerPart?_digitsOf n h, h.fraction, h.exponent, List.isEmpty_nil, Option.isNone_none,
      Bool.and_self, if_true, if_neg (Nat.not_lt.2 hn), Text.Decimal.valueOf_digitsOf, Bool.false_eq_true, if_false]

/-- The two forms of an integer. -/
theorem writeNumber_int (n : Int) :
    (n = -(n.natAbs : Int) ∧ writeNumber (.int n) = '-' :: digitsOf n.natAbs) ∨
    (n = n.natAbs ∧ writeNumber (.int n) = digitsOf n.natAbs) := by
  have hw : writeNumber (.int n) = if n < 0 then '-' :: digitsOf n.natAbs else digitsOf n.natAbs := by
    show (Text.Decimal.ofInt n).toList = _
    rw [Text.Decimal.ofInt, String.toList_ofList]
  by_cases hneg : n < 0
  · exact .inl ⟨by omega, by rw [hw, if_pos hneg]⟩
  · exact .inr ⟨by omega, by rw [hw, if_neg hneg]⟩

theorem writeNumber_lead (n : Int) : ∃ c ∈ "-0123456789".toList, ∃ cs, writeNumber (.int n) = c :: cs := by
  rcases writeNumber_int n with ⟨-, hw⟩ | ⟨-, hw⟩
  · exact ⟨'-', by decide, _, hw⟩
  · obtain ⟨c, cs, hcs, -⟩ := Text.Decimal.digitsOf_lead n.natAbs
    have hc := Text.Decimal.digitsOf_mem n.natAbs c (hcs ▸ List.mem_cons_self)
    exact ⟨c, List.mem_cons_of_mem '-' hc, cs, hw.trans hcs⟩

theorem number_writeNumber {n : Int} (hn : Holds n) {rest : List Char} (h : Stops rest) :
    number (writeNumber (.int n) ++ rest) = .ok (.int n, rest) := by
  rcases writeNumber_int n with ⟨heq, hw⟩ | ⟨heq, hw⟩
  · rw [hw, List.cons_append, number_minus hn h, ← heq]
  · rw [hw, number_digitsOf hn h, ← heq]

/-- No word of the language begins as an integer does. -/
theorem word?_writeNumber (n : Int) (rest : List Char) : word? (writeNumber (.int n) ++ rest) = none := by
  have all : ∀ d ∈ "0123456789".toList, 'n' ≠ d ∧ 't' ≠ d ∧ 'f' ≠ d ∧ 'N' ≠ d ∧ 'I' ≠ d ∧ '-' ≠ d :=
    Text.forall_mem_of_all (by decide)
  obtain ⟨c, cs, hcs, -⟩ := Text.Decimal.digitsOf_lead n.natAbs
  have hc := all c (Text.Decimal.digitsOf_mem n.natAbs c (hcs ▸ List.mem_cons_self))
  rcases writeNumber_int n with ⟨-, hw⟩ | ⟨-, hw⟩ <;>
    simp [hw, hcs, word?, words, hc]

/-! ## Data -/

/-- The data whose texts are read back. -/
inductive Plain : Json → Prop where
  | null : Plain .null
  | bool (b : Bool) : Plain (.bool b)
  | int {n : Int} (h : Holds n) : Plain (.num (.int n))
  | str (s : String) : Plain (.str s)
  | arr {xs : List Json} (h : ∀ x ∈ xs, Plain x) : Plain (.arr xs)
  | obj {fs : List (String × Json)} (distinct : (fs.map Prod.fst).Nodup) (h : ∀ f ∈ fs, Plain f.2) : Plain (.obj fs)

/-- The characters with which the text of a plain datum begins. -/
def leads : List Char := "ntf\x22[\x7b-0123456789".toList

theorem leads_spec : ∀ c ∈ leads, isSpace c = false ∧ c ≠ ']' ∧ c ≠ '\ufeff' := Text.forall_mem_of_all (by decide)

theorem writeAt_lead (layout : Layout) (level : Nat) {j : Json} (h : Plain j) :
    ∃ c ∈ leads, ∃ cs, writeAt layout level j = c :: cs := by
  have known : ∀ {c : Char} {cs : List Char}, c ∈ leads → ∃ d ∈ leads, ∃ ds, c :: cs = d :: ds :=
    fun hc => ⟨_, hc, _, rfl⟩
  cases h with
  | null => exact known (by decide)
  | bool b => cases b <;> exact known (by decide)
  | @int n h =>
    have all : ∀ c ∈ "-0123456789".toList, c ∈ leads := Text.forall_mem_of_all (by decide)
    obtain ⟨c, hc, cs, hcs⟩ := writeNumber_lead n
    exact ⟨c, all c hc, cs, by rw [writeAt, hcs]⟩
  | str s => exact known (by decide)
  | @arr xs h => cases xs <;> exact known (by decide)
  | @obj fs _ h =>
    cases fs with
    | nil => exact known (by decide)
    | cons f fs => exact known (by decide)

theorem skipSpace_cons {c : Char} (hc : isSpace c = false) (cs : List Char) : skipSpace (c :: cs) = c :: cs := by
  rw [skipSpace, List.dropWhile_cons_of_neg (by simp [hc])]

theorem skipSpace_blanks {blanks : List Char} (h : ∀ b ∈ blanks, isSpace b = true) {c : Char}
    (hc : isSpace c = false) (cs : List Char) : skipSpace (blanks ++ c :: cs) = c :: cs := by
  rw [skipSpace, List.dropWhile_append_of_pos h, ← skipSpace, skipSpace_cons hc]

theorem isSpace_newline (layout : Layout) (level : Nat) : ∀ b ∈ layout.newline level, isSpace b = true := by
  cases layout with
  | oneLine => simp [Layout.newline]
  | indented =>
    intro b hb
    rcases List.mem_cons.1 hb with rfl | hb
    · rfl
    · rw [(List.mem_replicate.1 hb).2]
      rfl

theorem separator_eq (layout : Layout) (level : Nat) :
    ∃ blanks, layout.separator level = ',' :: blanks ∧ ∀ b ∈ blanks, isSpace b = true := by
  cases layout with
  | oneLine => exact ⟨[' '], rfl, Text.forall_mem_of_all (by decide)⟩
  | indented => exact ⟨_, rfl, isSpace_newline .indented level⟩

/-- A line end or the closing character stands behind the last item. -/
theorem stops_newline (layout : Layout) (level : Nat) {c : Char} (hc : c ∈ [',', ']', '\x7d', '\n'])
    (cs : List Char) : Stops (layout.newline level ++ c :: cs) := by
  cases layout with
  | oneLine => exact stops_cons hc cs
  | indented => exact stops_cons (by decide) _

/-- The datum is read back from its text at the level, whatever stands behind it. -/
def Reads (layout : Layout) (level : Nat) (j : Json) : Prop :=
  ∀ fuel rest, Stops rest → 2 * (writeAt layout level j).length ≤ fuel →
    value fuel (writeAt layout level j ++ rest) = .ok (j, rest)

theorem items_write {layout : Layout} {level : Nat} (outer : Nat) {xs : List Json} :
    ∀ {x : Json} (_ : ∀ y ∈ x :: xs, Plain y ∧ Reads layout level y) (fuel : Nat) (rest : List Char),
      2 * ((writeAt layout level x).length + (writeItems layout level xs).length) + 1 ≤ fuel →
      items fuel (writeAt layout level x ++ (writeItems layout level xs ++ (layout.newline outer ++ ']' :: rest))) =
        .ok (x :: xs, rest) := by
  induction xs with
  | nil =>
    intro x h fuel rest hfuel
    obtain ⟨fuel, rfl⟩ := Nat.exists_eq_add_one_of_ne_zero (show fuel ≠ 0 by omega)
    have hx := (h x List.mem_cons_self).2 fuel (layout.newline outer ++ ']' :: rest)
      (stops_newline layout outer (by decide) rest) (by omega)
    rw [writeItems, List.nil_append, items, hx]
    simp only [bind, Except.bind]
    rw [skipSpace_blanks (isSpace_newline layout outer) (by decide)]
    rfl
  | cons y ys ih =>
    intro x h fuel rest hfuel
    obtain ⟨hx, hys⟩ := List.forall_mem_cons.1 h
    obtain ⟨blanks, hsep, hblanks⟩ := separator_eq layout level
    obtain ⟨c, hc, cs, hcs⟩ := writeAt_lead layout level (hys y List.mem_cons_self).1
    simp only [writeItems, hsep, List.length_append, List.length_cons] at hfuel
    obtain ⟨fuel, rfl⟩ := Nat.exists_eq_add_one_of_ne_zero (show fuel ≠ 0 by omega)
    have hrest := ih hys fuel rest (by omega)
    rw [hcs, List.cons_append] at hrest
    simp only [writeItems, hsep, hcs, List.cons_append, List.append_assoc]
    rw [items, hx.2 fuel _ (stops_cons (by decide) _) (by omega)]
    simp only [bind, Except.bind]
    rw [skipSpace_cons (by decide)]
    simp only [skipSpace_blanks hblanks (leads_spec c hc).1, hrest]
    rfl

theorem insert_of_not_mem {name : String} (x : Json) :
    ∀ {before : List (String × Json)}, name ∉ before.map Prod.fst → insert name x before = before ++ [(name, x)]
  | [], _ => rfl
  | f :: fs, h => by
    rw [List.map_cons, List.mem_cons, not_or] at h
    rw [insert, if_neg (Ne.symm h.1), insert_of_not_mem x h.2, List.cons_append]

/-- One field: its name and its datum are read, and what stands behind them decides how to go on. -/
theorem fields_step {layout : Layout} {level fuel : Nat} (name : String) {x : Json} (hp : Plain x)
    (hx : Reads layout level x) (before : List (String × Json)) {tail : List Char} (ht : Stops tail)
    (hfuel : 2 * (writeAt layout level x).length ≤ fuel) :
    fields (fuel + 1) before (writeText name ++ (':' :: ' ' :: (writeAt layout level x ++ tail))) =
      match skipSpace tail with
      | '\x7d' :: rest => .ok (insert name x before, rest)
      | ',' :: rest => fields fuel (insert name x before) (skipSpace rest)
      | rest => blame .comma rest := by
  obtain ⟨c, hc, cs, hcs⟩ := writeAt_lead layout level hp
  have hvalue := hx fuel tail ht hfuel
  rw [hcs, List.cons_append] at hvalue
  have hblank : ∀ b ∈ [' '], isSpace b = true := List.forall_mem_singleton.2 (by decide)
  have hspace := skipSpace_blanks hblank (leads_spec c hc).1 (cs ++ tail)
  rw [List.singleton_append] at hspace
  rw [writeText, List.cons_append, List.append_assoc, List.singleton_append, hcs, List.cons_append, fields]
  simp only [textBody_escape, bind, Except.bind]
  rw [skipSpace_cons (by decide)]
  simp only [hspace, hvalue, String.ofList_toList]
  rfl

theorem fields_write {layout : Layout} {level : Nat} (outer : Nat) {fs : List (String × Json)} :
    ∀ {name : String} {x : Json} (before : List (String × Json))
      (_ : ∀ f ∈ (name, x) :: fs, Plain f.2 ∧ Reads layout level f.2)
      (_ : ((before ++ (name, x) :: fs).map Prod.fst).Nodup) (fuel : Nat) (rest : List Char),
      2 * ((writeAt layout level x).length + (writeFields layout level fs).length) + 1 ≤ fuel →
      fields fuel before (writeText name ++ (':' :: ' ' :: (writeAt layout level x ++ (writeFields layout level fs ++
        (layout.newline outer ++ '\x7d' :: rest))))) = .ok (before ++ (name, x) :: fs, rest) := by
  have fresh : ∀ {name : String} {x : Json} {before fs : List (String × Json)},
      ((before ++ (name, x) :: fs).map Prod.fst).Nodup → insert name x before = before ++ [(name, x)] := by
    intro name x before fs h
    rw [List.map_append, List.nodup_append] at h
    exact insert_of_not_mem x fun hm => h.2.2 name hm name (by simp) rfl
  induction fs with
  | nil =>
    intro name x before h hnames fuel rest hfuel
    obtain ⟨fuel, rfl⟩ := Nat.exists_eq_add_one_of_ne_zero (show fuel ≠ 0 by omega)
    obtain ⟨hp, hx⟩ : Plain x ∧ Reads layout level x := h _ List.mem_cons_self
    rw [writeFields, List.nil_append,
      fields_step name hp hx before (stops_newline layout outer (by decide) rest) (by omega),
      skipSpace_blanks (isSpace_newline layout outer) (by decide)]
    exact congrArg (fun fs => Except.ok (fs, rest)) (fresh hnames)
  | cons g gs ih =>
    intro name x before h hnames fuel rest hfuel
    obtain ⟨hp, hx⟩ : Plain x ∧ Reads layout level x := h _ List.mem_cons_self
    have hgs := (List.forall_mem_cons.1 h).2
    obtain ⟨blanks, hsep, hblanks⟩ := separator_eq layout level
    simp only [writeFields, hsep, List.length_append, List.length_cons] at hfuel
    obtain ⟨fuel, rfl⟩ := Nat.exists_eq_add_one_of_ne_zero (show fuel ≠ 0 by omega)
    have hrest := ih (before ++ [(name, x)]) hgs (by rwa [List.append_assoc]) fuel rest (by omega)
    simp only [writeFields, hsep, List.cons_append, List.append_assoc, List.nil_append]
    rw [fields_step name hp hx before (stops_cons (by decide) _) (by omega), skipSpace_cons (by decide)]
    rw [writeText, List.cons_append] at hrest ⊢
    show fields fuel (insert name x before) (skipSpace (blanks ++ '\x22' :: _)) = _
    rw [fresh hnames, skipSpace_blanks hblanks (by decide), hrest, List.append_assoc, List.singleton_append]

theorem reads_arr {layout : Layout} {level : Nat} {xs : List Json}
    (h : ∀ y ∈ xs, Plain y ∧ Reads layout (level + 1) y) : Reads layout level (.arr xs) := by
  intro fuel rest _ hfuel
  cases xs with
  | nil =>
    obtain ⟨fuel, rfl⟩ := Nat.exists_eq_add_one_of_ne_zero (show fuel ≠ 0 by simp [writeAt] at hfuel; omega)
    rfl
  | cons x xs =>
    obtain ⟨c, hc, cs, hcs⟩ := writeAt_lead layout (level + 1) (h x List.mem_cons_self).1
    rw [writeAt] at hfuel ⊢
    simp only [List.length_cons, List.length_append] at hfuel
    obtain ⟨fuel, rfl⟩ := Nat.exists_eq_add_one_of_ne_zero (show fuel ≠ 0 by omega)
    have hitems := items_write level h fuel rest (by omega)
    rw [hcs, List.cons_append] at hitems
    simp only [hcs, List.cons_append, List.append_assoc, List.nil_append]
    rw [value, if_neg (by decide), if_pos rfl,
      skipSpace_blanks (isSpace_newline layout (level + 1)) (leads_spec c hc).1]
    split
    · next heq => exact absurd (List.cons.inj heq).1 (leads_spec c hc).2.1
    · rw [hitems]
      rfl

theorem reads_obj {layout : Layout} {level : Nat} {fs : List (String × Json)} (hd : (fs.map Prod.fst).Nodup)
    (h : ∀ f ∈ fs, Plain f.2 ∧ Reads layout (level + 1) f.2) : Reads layout level (.obj fs) := by
  intro fuel rest _ hfuel
  cases fs with
  | nil =>
    obtain ⟨fuel, rfl⟩ := Nat.exists_eq_add_one_of_ne_zero (show fuel ≠ 0 by simp [writeAt] at hfuel; omega)
    rfl
  | cons f fs =>
    obtain ⟨name, x⟩ := f
    rw [writeAt] at hfuel ⊢
    simp only [List.length_cons, List.length_append] at hfuel
    obtain ⟨fuel, rfl⟩ := Nat.exists_eq_add_one_of_ne_zero (show fuel ≠ 0 by omega)
    have hfields := fields_write level [] h hd fuel rest (by omega)
    rw [writeText, List.cons_append] at hfields ⊢
    simp only [List.cons_append, List.append_assoc, List.nil_append] at hfields ⊢
    rw [value, if_neg (by decide), if_neg (by decide), if_pos rfl,
      skipSpace_blanks (isSpace_newline layout (level + 1)) (by decide)]
    show (fields fuel [] _ >>= _) = _
    rw [hfields]
    rfl

/-- A plain datum is read back from its text. -/
theorem reads_of_plain (layout : Layout) {j : Json} (h : Plain j) : ∀ level, Reads layout level j := by
  have spend : ∀ {k fuel : Nat}, 2 * (k + 1) ≤ fuel → ∃ m, fuel = m + 1 := fun {_ fuel} _ => ⟨fuel - 1, by omega⟩
  induction h with
  | null =>
    intro level fuel rest _ hfuel
    obtain ⟨fuel, rfl⟩ := spend hfuel
    rfl
  | bool b =>
    intro level fuel rest _ hfuel
    cases b with
    | true =>
      obtain ⟨fuel, rfl⟩ := spend hfuel
      rfl
    | false =>
      obtain ⟨fuel, rfl⟩ := spend hfuel
      rfl
  | @int n hn =>
    intro level fuel rest hrest hfuel
    have all : ∀ c ∈ "-0123456789".toList, c ≠ '\x22' ∧ c ≠ '[' ∧ c ≠ '\x7b' := Text.forall_mem_of_all (by decide)
    have hword := word?_writeNumber n rest
    have hnumber := number_writeNumber hn hrest
    obtain ⟨c, hc, cs, hcs⟩ := writeNumber_lead n
    obtain ⟨hquote, hbracket, hbrace⟩ := all c hc
    rw [writeAt, hcs] at hfuel ⊢
    rw [hcs, List.cons_append] at hword hnumber
    obtain ⟨fuel, rfl⟩ := spend hfuel
    rw [List.cons_append, value, if_neg hquote, if_neg hbracket, if_neg hbrace, hword]
    simp only [hnumber]
    rfl
  | str s =>
    intro level fuel rest _ hfuel
    obtain ⟨fuel, rfl⟩ := spend hfuel
    rw [writeAt, writeText, List.cons_append, List.append_assoc, List.singleton_append, value, if_pos rfl,
      textBody_escape]
    simp [bind, Except.bind, pure, Except.pure]
  | arr h ih => exact fun level => reads_arr fun y hy => ⟨h y hy, ih y hy (level + 1)⟩
  | obj hd h ih => exact fun level => reads_obj hd fun f hf => ⟨h f hf, ih f hf (level + 1)⟩

/-- The text of a plain datum denotes it. -/
theorem read_write (layout : Layout) {j : Json} (h : Plain j) : read (write layout j).toList = .ok j := by
  obtain ⟨c, hc, cs, hcs⟩ := writeAt_lead layout 0 h
  obtain ⟨hspace, -, hmark⟩ := leads_spec c hc
  have hvalue := reads_of_plain layout h 0 (2 * (c :: cs).length + 2) [] stops_nil (by rw [hcs]; omega)
  rw [hcs, List.append_nil] at hvalue
  have hdoc : document (c :: cs) = .ok j := by
    unfold document
    split
    · next heq => exact absurd (List.cons.inj heq).1 hmark
    · rw [skipSpace_cons hspace, hvalue]
      rfl
  rw [write, String.toList_ofList, hcs, read, hdoc]

/-! ## Line ends -/

theorem carriageReturn_not_mem_writeText (s : String) : '\r' ∉ writeText s := by
  have hexs : ∀ k : Fin 0x20, '\r' ∉ Text.hexDigits 4 k := by decide
  have hescape : ∀ c, '\r' ∉ escape c := by
    intro c
    rcases escape_cases c with ⟨e, -, he, hc⟩ | ⟨hn, hc⟩ | ⟨-, -, hn, hc⟩
    · rw [hc]
      rintro (_ | ⟨_, _ | ⟨_, h⟩⟩)
      · exact absurd he (Option.some_ne_none c).symm
      · cases h
    · simp [hc, hexs ⟨c.toNat, hn⟩]
    · rw [hc, List.mem_singleton]
      rintro rfl
      exact hn (by decide)
  simp [writeText, hescape]

theorem carriageReturn_not_mem_newline (layout : Layout) (level : Nat) : '\r' ∉ layout.newline level := by
  cases layout <;> simp [Layout.newline]

theorem carriageReturn_not_mem_separator (layout : Layout) (level : Nat) : '\r' ∉ layout.separator level := by
  cases layout <;> simp [Layout.separator, Layout.newline]

theorem carriageReturn_not_mem_writeItems {layout : Layout} {level : Nat} :
    ∀ {xs : List Json}, (∀ x ∈ xs, '\r' ∉ writeAt layout level x) → '\r' ∉ writeItems layout level xs
  | [], _ => List.not_mem_nil
  | x :: xs, h => by
    obtain ⟨hx, hxs⟩ := List.forall_mem_cons.1 h
    simp [writeItems, carriageReturn_not_mem_separator, hx, carriageReturn_not_mem_writeItems hxs]

theorem carriageReturn_not_mem_writeFields {layout : Layout} {level : Nat} :
    ∀ {fs : List (String × Json)}, (∀ f ∈ fs, '\r' ∉ writeAt layout level f.2) → '\r' ∉ writeFields layout level fs
  | [], _ => List.not_mem_nil
  | (name, x) :: fs, h => by
    obtain ⟨hx, hfs⟩ := List.forall_mem_cons.1 h
    simp [writeFields, carriageReturn_not_mem_separator, carriageReturn_not_mem_writeText, hx,
      carriageReturn_not_mem_writeFields hfs]

/-- The text of a plain datum holds no carriage return. -/
theorem carriageReturn_not_mem_writeAt (layout : Layout) {j : Json} (h : Plain j) :
    ∀ level, '\r' ∉ writeAt layout level j := by
  induction h with
  | null => exact fun _ => (by decide : '\r' ∉ "null".toList)
  | bool b =>
    cases b with
    | true => exact fun _ => (by decide : '\r' ∉ "true".toList)
    | false => exact fun _ => (by decide : '\r' ∉ "false".toList)
  | @int n _ =>
    intro level hr
    have all : ∀ c ∈ "0123456789".toList, c ≠ '\r' := Text.forall_mem_of_all (by decide)
    have hdigits := fun hm => all '\r' (Text.Decimal.digitsOf_mem n.natAbs '\r' hm) rfl
    rw [writeAt] at hr
    rcases writeNumber_int n with ⟨-, hw⟩ | ⟨-, hw⟩
    · rw [hw, List.mem_cons] at hr
      exact hr.elim (by decide) hdigits
    · exact hdigits (hw ▸ hr)
  | str s => exact fun _ => carriageReturn_not_mem_writeText s
  | @arr xs h ih =>
    intro level
    cases xs with
    | nil => exact (by decide : '\r' ∉ ['[', ']'])
    | cons x xs =>
      obtain ⟨hx, hxs⟩ := List.forall_mem_cons.1 ih
      simp [writeAt, carriageReturn_not_mem_newline, hx,
        carriageReturn_not_mem_writeItems fun y hy => hxs y hy (level + 1)]
  | @obj fs hd h ih =>
    intro level
    cases fs with
    | nil => exact (by decide : '\r' ∉ ['\x7b', '\x7d'])
    | cons f fs =>
      obtain ⟨name, x⟩ := f
      obtain ⟨hx, hfs⟩ := List.forall_mem_cons.1 ih
      simp [writeAt, carriageReturn_not_mem_newline, carriageReturn_not_mem_writeText, hx,
        carriageReturn_not_mem_writeFields fun g hg => hfs g hg (level + 1)]

end LineLang.Json
