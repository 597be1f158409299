import LineLang.Proofs.CallResults
import LineLang.Proofs.Rendering

/-!
# Lexemes as the longest pieces of a text

Up to its first NUL a text consists of its lexemes and of the blanks around them. A word or a number is a run of
letters or digits that goes on to neither side. Two characters that make an operator are never read apart, and every
other character that is no blank stands alone. A text can be cut in this way in one way only.

* `keywordKinds`, `pairKinds`, `markKinds` : the kinds with a fixed spelling, by that spelling;
* `Munched before t behind` : between the characters `before` and `behind`, `t` is as long as it can be;
* `Cutting` : blanks and lexemes; `Cutting.text` puts them together again;
* `Munches before parts behind`, `Cutting.MaximalMunch` : each of the lexemes is as long as it can be;
* `munched_scanFrom`, `Munched.scanFrom_eq` : the scanner finds such a lexeme, and there is no other;
* `Cuts before cs behind ts` : the lexemes `ts` are cut from `cs` in this way;
* `cuts_lexemes`, `Cutting.MaximalMunch.unique` : every text without a NUL can be cut, in one way;
* `lexemes_append` : nothing in front of a line feed or of a NUL depends on what stands behind it;
* `Cursor.ReadsAll c ts c'` : the lexemes from `c` on, up to the first end, are `ts`, and the cursor is then at `c'`.
-/

namespace LineLang

open Strict (lexemes_of_cons lexemes_gap takeWhile_run dropWhile_run head_of_dropWhile head?_dropWhile)

/-- The kinds of the words that are no names. -/
def keywordKinds : List (String × Kind) :=
  [("print", .printWord), ("if", .ifWord), ("else", .elseWord), ("while", .whileWord)]

/-- The kinds of the operators of two characters. -/
def pairKinds : List ((Char × Char) × Kind) :=
  [(('=', '='), .equal), (('!', '='), .notEqual), (('<', '='), .atMost), (('>', '='), .atLeast),
   (('&', '&'), .both), (('|', '|'), .either)]

/-- The kinds of the single characters that mean something. -/
def markKinds : List (Char × Kind) :=
  [('(', .lparen), (')', .rparen), ('\x7b', .lbrace), ('\x7d', .rbrace), (',', .comma), ('+', .plus),
   ('-', .minus), ('*', .star), ('/', .slash), ('%', .percent), ('\n', .newline), ('=', .assign), ('<', .less),
   ('>', .greater)]

inductive Munched (before : List Char) (t : Lexeme) (behind : List Char) : Prop where
  /-- A run of letters, with no letter on either side. -/
  | word (nonempty : t.text.toList ≠ []) (letters : ∀ c ∈ t.text.toList, isLetter c = true)
    (hbefore : ∀ c ∈ before.getLast?, isLetter c = false) (hbehind : ∀ c ∈ behind.head?, isLetter c = false)
    (kind : t.kind = (keywordKinds.lookup t.text).getD .ident)
  /-- A run of digits, with no digit on either side. -/
  | number (nonempty : t.text.toList ≠ []) (digits : ∀ c ∈ t.text.toList, isDigit c = true)
    (hbefore : ∀ c ∈ before.getLast?, isDigit c = false) (hbehind : ∀ c ∈ behind.head?, isDigit c = false)
    (kind : t.kind = .num)
  /-- Two characters that make an operator. -/
  | pair {a b : Char} (text : t.text.toList = [a, b]) (kind : pairKinds.lookup (a, b) = some t.kind)
  /-- One character, which makes no operator with the next one. -/
  | single {c : Char} (text : t.text.toList = [c]) (letter : isLetter c = false) (digit : isDigit c = false)
    (gap : isGap c = false) (alone : ∀ d ∈ behind.head?, pairKinds.lookup (c, d) = none)
    (kind : t.kind = (markKinds.lookup c).getD .illegal)

/-- The characters of some lexemes, each with the blanks behind it. -/
def joined (parts : List (Lexeme × List Char)) : List Char := parts.flatMap fun p => p.1.text.toList ++ p.2

def Munches (before : List Char) (parts : List (Lexeme × List Char)) (behind : List Char) : Prop :=
  match parts with
  | [] => True
  | (t, gap) :: more => (∀ c ∈ gap, isGap c = true) ∧ Munched before t (gap ++ (joined more ++ behind)) ∧
      Munches (before ++ (t.text.toList ++ gap)) more behind

/-- A text in pieces: blanks, and then lexemes with the blanks behind each of them. -/
structure Cutting where
  front : List Char
  parts : List (Lexeme × List Char)

namespace Cutting

def text (c : Cutting) : List Char := c.front ++ joined c.parts

def lexemes (c : Cutting) : List Lexeme := c.parts.map Prod.fst

def MaximalMunch (c : Cutting) : Prop := (∀ x ∈ c.front, isGap x = true) ∧ Munches c.front c.parts []

end Cutting

def Cuts (before cs behind : List Char) (ts : List Lexeme) : Prop :=
  ∃ c : Cutting, c.text = cs ∧ c.lexemes = ts ∧ (∀ x ∈ c.front, isGap x = true) ∧
    Munches (before ++ c.front) c.parts behind

/-! ## Spellings -/

theorem ofWord_eq (w : String) : Kind.ofWord w = (keywordKinds.lookup w).getD .ident := by
  unfold Kind.ofWord
  split
  · next h => rw [h]; rfl
  split
  · next h => rw [h]; rfl
  split
  · next h => rw [h]; rfl
  split
  · next h => rw [h]; rfl
  · next h₁ h₂ h₃ h₄ =>
    have hnone : keywordKinds.lookup w = none :=
      List.lookup_eq_none_iff.2 (by simp [keywordKinds, h₁, h₂, h₃, h₄])
    rw [hnone]
    rfl

/-- A character that is always a lexeme of its own. -/
theorem single?_spec {c : Char} {k : Kind} (h : Kind.single? c = some k) :
    markKinds.lookup c = some k ∧ ∀ d, pairKinds.lookup (c, d) = none := by
  revert h
  fun_cases Kind.single? c
  case case12 => rintro ⟨⟩
  all_goals
    rename_i hc
    rintro ⟨⟩
    rw [hc]
    exact ⟨rfl, fun d => List.lookup_eq_none_iff.2 (by simp [pairKinds])⟩

/-- A character that makes an operator with one other character. -/
theorem pair?_spec {c second : Char} {two one : Kind} (h : Kind.pair? c = some (second, two, one)) :
    (markKinds.lookup c).getD .illegal = one ∧ pairKinds.lookup (c, second) = some two ∧
      ∀ d ≠ second, pairKinds.lookup (c, d) = none := by
  revert h
  fun_cases Kind.pair? c
  case case7 => rintro ⟨⟩
  all_goals
    rename_i hc
    rintro ⟨⟩
    rw [hc]
    exact ⟨rfl, rfl, fun d hd => List.lookup_eq_none_iff.2 (by simp [pairKinds, hd])⟩

/-- Any other character. -/
theorem single?_none {c : Char} (hs : Kind.single? c = none) (hp : Kind.pair? c = none) :
    markKinds.lookup c = none ∧ ∀ d, pairKinds.lookup (c, d) = none := by
  have marks : markKinds.all (fun p => (Kind.single? p.1).isSome || (Kind.pair? p.1).isSome) = true := by decide
  have pairs : pairKinds.all (fun p => (Kind.pair? p.1.1).isSome) = true := by decide
  constructor
  · refine List.lookup_eq_none_iff.2 fun p hmem => bne_iff_ne.2 ?_
    rintro rfl
    have h := List.all_eq_true.1 marks p hmem
    rw [hs, hp] at h
    cases h
  · intro d
    refine List.lookup_eq_none_iff.2 fun p hmem => bne_iff_ne.2 ?_
    rintro h
    have h' := List.all_eq_true.1 pairs p hmem
    rw [← h, hp] at h'
    cases h'

/-! ## The lexeme at the front -/

/-- Neither a word nor a number goes on from `before` to `behind`. -/
def Parted (before behind : List Char) : Prop :=
  ∀ a ∈ before.getLast?, ∀ b ∈ behind.head?,
    (isLetter b = true → isLetter a = false) ∧ (isDigit b = true → isDigit a = false)

/-- The scanner finds a lexeme that is as long as it can be. -/
theorem munched_scanFrom {before : List Char} {c : Char} {cs : List Char} (hg : isGap c = false)
    (h : Parted before (c :: cs)) : Munched before (scanFrom c cs).1 (scanFrom c cs).2 ∧
      (scanFrom c cs).1.text.toList ++ (scanFrom c cs).2 = c :: cs := by
  unfold scanFrom
  split
  · next hl =>
    refine ⟨.word (by simp) ?_ (fun a ha => (h a ha c rfl).1 hl) head?_dropWhile (ofWord_eq _), by simp⟩
    simpa [hl] using fun x hx => List.mem_takeWhile_imp hx
  split
  · next hd =>
    refine ⟨.number (by simp) ?_ (fun a ha => (h a ha c rfl).2 hd) head?_dropWhile rfl, by simp⟩
    simpa [hd] using fun x hx => List.mem_takeWhile_imp hx
  · next hl hd =>
    have hl : isLetter c = false := by simpa using hl
    have hd : isDigit c = false := by simpa using hd
    split
    · next k hs =>
      obtain ⟨hk, hp⟩ := single?_spec hs
      exact ⟨.single (by simp) hl hd hg (fun d _ => hp d) (by rw [hk]; rfl), by simp⟩
    · next second two one d rest hs hp =>
      obtain ⟨hone, htwo, hother⟩ := pair?_spec hp
      split
      · next hsecond =>
        subst hsecond
        exact ⟨.pair (by simp) htwo, by simp⟩
      · next hsecond =>
        refine ⟨.single (by simp) hl hd hg (fun e he => hother e ?_) hone.symm, by simp⟩
        rwa [← Option.some.inj he]
    · next second two one hs hp =>
      obtain ⟨hone, -, -⟩ := pair?_spec hp
      exact ⟨.single (by simp) hl hd hg (fun d hd => nomatch hd) hone.symm, by simp⟩
    · next hs hp =>
      obtain ⟨hk, hpair⟩ := single?_none hs hp
      exact ⟨.single (by simp) hl hd hg (fun d _ => hpair d) (by rw [hk]; rfl), by simp⟩

/-- A run of characters at the front that does not go on behind it. -/
theorem run_append {p : Char → Bool} {w : String} {behind cs : List Char} {c : Char} (hne : w.toList ≠ [])
    (hp : ∀ x ∈ w.toList, p x = true) (hbehind : ∀ x ∈ behind.head?, p x = false)
    (h : w.toList ++ behind = c :: cs) :
    p c = true ∧ String.ofList (c :: cs.takeWhile p) = w ∧ cs.dropWhile p = behind := by
  obtain ⟨x, xs, hx⟩ := List.exists_cons_of_ne_nil hne
  rw [hx, List.cons_append] at h
  obtain ⟨rfl, rfl⟩ := List.cons.inj h
  rw [hx] at hp
  obtain ⟨hc, hcs⟩ := List.forall_mem_cons.1 hp
  rw [takeWhile_run hcs hbehind, dropWhile_run hcs hbehind, ← hx, String.ofList_toList]
  exact ⟨hc, rfl, rfl⟩

/-- The two characters of an operator are no letters, digits or blanks. -/
theorem of_lookup_pairKinds {a b : Char} {k : Kind} (h : pairKinds.lookup (a, b) = some k) :
    (∀ c ∈ [a, b], isLetter c = false ∧ isDigit c = false ∧ isGap c = false) ∧ Kind.single? a = none ∧
      ∃ one, Kind.pair? a = some (b, k, one) := by
  have table : pairKinds.all (fun p => ([p.1.1, p.1.2].all fun c => !isLetter c && !isDigit c && !isGap c) &&
      (Kind.single? p.1.1).isNone && (Kind.pair? p.1.1).any fun q => q.1 = p.1.2 && q.2.1 = p.2) = true := by decide
  obtain ⟨l₁, l₂, hl, -⟩ := List.lookup_eq_some_iff.1 h
  have hmem : ((a, b), k) ∈ pairKinds := by rw [hl]; simp
  have hall := List.all_eq_true.1 table _ hmem
  simp only [Bool.and_eq_true, Option.isNone_iff_eq_none, Option.any_eq_true, decide_eq_true_eq] at hall
  obtain ⟨⟨hplain, hs⟩, ⟨second, two, one⟩, hp, rfl, rfl⟩ := hall
  refine ⟨fun c hc => ?_, hs, one, hp⟩
  simpa [and_assoc] using List.all_eq_true.1 hplain c hc

theorem scanFrom_of_single {c : Char} (hl : isLetter c = false) (hd : isDigit c = false) {cs : List Char}
    (h : ∀ d ∈ cs.head?, pairKinds.lookup (c, d) = none) :
    scanFrom c cs = (⟨(markKinds.lookup c).getD .illegal, String.singleton c⟩, cs) := by
  cases hs : Kind.single? c with
  | some k => rw [Strict.scanFrom_single hl hd hs, (single?_spec hs).1, Option.getD_some]
  | none =>
    cases hp : Kind.pair? c with
    | some p =>
      obtain ⟨second, two, one⟩ := p
      obtain ⟨hone, htwo, -⟩ := pair?_spec hp
      have hc : cs.head? ≠ some second := fun hc => by
        rw [h second hc] at htwo
        cases htwo
      rw [Strict.scanFrom_alone hl hd hs hp hc, hone]
    | none =>
      rw [(single?_none hs hp).1]
      unfold scanFrom
      simp [hl, hd, hs, hp]

/-- There is no other one. -/
theorem Munched.scanFrom_eq {before behind cs : List Char} {t : Lexeme} {c : Char} (h : Munched before t behind)
    (ht : t.text.toList ++ behind = c :: cs) : scanFrom c cs = (t, behind) := by
  obtain ⟨kind, text⟩ := t
  cases h with
  | word hne hl _ hbehind hk =>
    obtain ⟨hc, htext, hrest⟩ := run_append hne hl hbehind ht
    unfold scanFrom
    rw [if_pos hc, htext, hrest]
    show ((⟨Kind.ofWord text, text⟩ : Lexeme), behind) = _
    rw [ofWord_eq, ← hk]
  | number hne hd _ hbehind hk =>
    obtain ⟨hc, htext, hrest⟩ := run_append hne hd hbehind ht
    unfold scanFrom
    rw [if_neg (by rw [Strict.not_letter_of_digit hc]; exact Bool.false_ne_true), if_pos hc, htext, hrest, ← hk]
  | @pair a b hab hk =>
    dsimp only at hab hk ht
    rw [hab] at ht
    obtain ⟨rfl, rfl⟩ : a = c ∧ b :: behind = cs := List.cons.inj ht
    obtain ⟨hplain, hs, one, hp⟩ := of_lookup_pairKinds hk
    obtain ⟨hl, hd, -⟩ := hplain a (by simp)
    rw [Strict.scanFrom_pair hl hd hs hp, ← hab, String.ofList_toList]
  | @single x hx hl hd _ halone hk =>
    dsimp only at hx hk ht
    rw [hx] at ht
    obtain ⟨rfl, rfl⟩ : x = c ∧ behind = cs := List.cons.inj ht
    rw [scanFrom_of_single hl hd halone, ← hk, String.singleton_eq_ofList, ← hx, String.ofList_toList]

/-! ## Texts in pieces -/

variable {before behind : List Char} {t : Lexeme} {parts : List (Lexeme × List Char)}

theorem joined_cons (t : Lexeme) (gap : List Char) (parts : List (Lexeme × List Char)) :
    joined ((t, gap) :: parts) = t.text.toList ++ (gap ++ joined parts) := by
  rw [joined, List.flatMap_cons, List.append_assoc]
  rfl

theorem joined_append (xs ys : List (Lexeme × List Char)) : joined (xs ++ ys) = joined xs ++ joined ys :=
  List.flatMap_append

/-- A lexeme begins with a character that is no blank. -/
theorem Munched.start (h : Munched before t behind) : ∃ c cs, t.text.toList = c :: cs ∧ isGap c = false := by
  have solid : ∀ {c : Char}, isLetter c = true ∨ isDigit c = true → isGap c = false := by
    intro c hc
    cases hg : isGap c with
    | false => rfl
    | true =>
      simp only [isGap, Bool.or_eq_true, decide_eq_true_eq] at hg
      rcases hg with rfl | rfl <;> exact absurd hc (by decide)
  cases h with
  | word hne hl _ _ _ =>
    obtain ⟨c, cs, hc⟩ := List.exists_cons_of_ne_nil hne
    exact ⟨c, cs, hc, solid (.inl (hl c (by simp [hc])))⟩
  | number hne hd _ _ _ =>
    obtain ⟨c, cs, hc⟩ := List.exists_cons_of_ne_nil hne
    exact ⟨c, cs, hc, solid (.inr (hd c (by simp [hc])))⟩
  | @pair a b hab hk => exact ⟨_, _, hab, ((of_lookup_pairKinds hk).1 a (by simp)).2.2⟩
  | single hc _ _ hg _ _ => exact ⟨_, _, hc, hg⟩

theorem Munches.start (h : Munches before parts behind) : ∀ c ∈ (joined parts).head?, isGap c = false := by
  cases parts with
  | nil => exact fun c hc => nomatch hc
  | cons p more =>
    obtain ⟨c, cs, hc, hg⟩ := h.2.1.start
    intro x hx
    rw [joined_cons, hc] at hx
    rwa [← Option.some.inj hx]

theorem blanks_unique {gap gap' cs cs' : List Char} (hg : ∀ c ∈ gap, isGap c = true)
    (hg' : ∀ c ∈ gap', isGap c = true) (hc : ∀ c ∈ cs.head?, isGap c = false) (hc' : ∀ c ∈ cs'.head?, isGap c = false)
    (h : gap ++ cs = gap' ++ cs') : gap = gap' ∧ cs = cs' := by
  have hgap : gap = gap' := by
    rw [← takeWhile_run hg hc, h, takeWhile_run hg' hc']
  subst hgap
  exact ⟨rfl, List.append_cancel_left h⟩

theorem joined_eq_nil (h : Munches before parts behind) (hs : joined parts = []) : parts = [] := by
  cases parts with
  | nil => rfl
  | cons p more =>
    obtain ⟨c, cs, hc, -⟩ := h.2.1.start
    rw [joined_cons, hc] at hs
    cases hs

/-- Two ways to cut the same text are the same. -/
theorem munches_unique {before' : List Char} {parts' : List (Lexeme × List Char)} (h : Munches before parts [])
    (h' : Munches before' parts' []) (heq : joined parts = joined parts') : parts = parts' := by
  induction parts generalizing before before' parts' with
  | nil => exact (joined_eq_nil h' heq.symm).symm
  | cons p more ih =>
    cases parts' with
    | nil => exact joined_eq_nil h heq
    | cons p' more' =>
      obtain ⟨t, gap⟩ := p
      obtain ⟨t', gap'⟩ := p'
      obtain ⟨hg, ht, hmore⟩ := h
      obtain ⟨hg', ht', hmore'⟩ := h'
      obtain ⟨c, cs, hc, -⟩ := ht.start
      rw [joined_cons, joined_cons] at heq
      rw [List.append_nil] at ht ht'
      -- the scanner finds both lexemes at the front of the same text
      have hfront : t.text.toList ++ (gap ++ joined more) = c :: (cs ++ (gap ++ joined more)) := by
        rw [hc, List.cons_append]
      have hscan := (ht.scanFrom_eq hfront).symm.trans (ht'.scanFrom_eq (heq.symm.trans hfront))
      obtain ⟨rfl, hrest⟩ := Prod.mk.inj hscan
      obtain ⟨rfl, hjoined⟩ := blanks_unique hg hg' hmore.start hmore'.start hrest
      rw [ih hmore hmore' hjoined]

theorem Cutting.MaximalMunch.unique {c c' : Cutting} (h : c.MaximalMunch) (h' : c'.MaximalMunch)
    (htext : c.text = c'.text) : c = c' := by
  obtain ⟨front, parts⟩ := c
  obtain ⟨front', parts'⟩ := c'
  obtain ⟨hfront, hmunch⟩ := h
  obtain ⟨hfront', hmunch'⟩ := h'
  obtain ⟨hfronts, hjoined⟩ := blanks_unique hfront hfront' hmunch.start hmunch'.start htext
  rw [Cutting.mk.injEq]
  exact ⟨hfronts, munches_unique hmunch hmunch' hjoined⟩

theorem not_digit_of_letter {c : Char} (h : isLetter c = true) : isDigit c = false := by
  cases hd : isDigit c with
  | false => rfl
  | true => exact absurd (Strict.not_letter_of_digit hd) (by simp [h])

theorem not_run_of_gap {c : Char} (h : isGap c = true) : isLetter c = false ∧ isDigit c = false := by
  simp only [isGap, Bool.or_eq_true, decide_eq_true_eq] at h
  rcases h with rfl | rfl <;> decide

theorem mem_of_getLast?_append {xs ys : List Char} {a : Char} (hne : ys ≠ []) (h : a ∈ (xs ++ ys).getLast?) :
    a ∈ ys := by
  rw [List.getLast?_append, List.getLast?_eq_some_getLast hne] at h
  rw [← Option.some.inj h]
  exact List.getLast_mem hne

/-- Neither a word nor a number goes on behind a lexeme. -/
theorem Munched.parted (h : Munched before t behind) : Parted (before ++ t.text.toList) behind := by
  obtain ⟨c, cs, hc, -⟩ := h.start
  intro a ha b hb
  have hmem : a ∈ t.text.toList := mem_of_getLast?_append (by simp [hc]) ha
  cases h with
  | word _ hl _ hbehind _ =>
    exact ⟨fun h => absurd h (by simp [hbehind b hb]), fun _ => not_digit_of_letter (hl a hmem)⟩
  | number _ hd _ hbehind _ =>
    exact ⟨fun _ => Strict.not_letter_of_digit (hd a hmem), fun h => absurd h (by simp [hbehind b hb])⟩
  | pair hab hk =>
    obtain ⟨hl, hd, -⟩ := (of_lookup_pairKinds hk).1 a (hab ▸ hmem)
    exact ⟨fun _ => hl, fun _ => hd⟩
  | single hx hl hd _ _ _ =>
    obtain rfl := List.mem_singleton.1 (hx ▸ hmem)
    exact ⟨fun _ => hl, fun _ => hd⟩

theorem Parted.blanks {gap cs : List Char} (h : Parted before (gap ++ cs)) (hg : ∀ c ∈ gap, isGap c = true) :
    Parted (before ++ gap) cs := by
  by_cases hne : gap = []
  · subst hne
    rwa [List.append_nil]
  · intro a ha b _
    obtain ⟨hl, hd⟩ := not_run_of_gap (hg a (mem_of_getLast?_append hne ha))
    exact ⟨fun _ => hl, fun _ => hd⟩

theorem nul_not_mem_behind {cs rest : List Char} {c : Char} (h0 : nul ∉ cs) (hcons : cs.dropWhile isGap = c :: rest) :
    nul ∉ (scanFrom c rest).2 := by
  have hstart : Parted [] (c :: rest) := fun a ha => nomatch ha
  obtain ⟨-, htext⟩ := munched_scanFrom (head_of_dropWhile hcons) hstart
  intro h
  apply h0
  apply (List.dropWhile_suffix isGap).subset
  rw [hcons, ← htext]
  exact List.mem_append_right _ h

namespace Cuts

variable {cs : List Char} {ts : List Lexeme}

theorem nil : Cuts before [] behind [] := ⟨⟨[], []⟩, rfl, rfl, List.forall_mem_nil _, trivial⟩

theorem blanks {gap : List Char} (hg : ∀ c ∈ gap, isGap c = true) (h : Cuts (before ++ gap) cs behind ts) :
    Cuts before (gap ++ cs) behind ts := by
  obtain ⟨⟨front, parts⟩, rfl, rfl, hfront, hmunch⟩ := h
  refine ⟨⟨gap ++ front, parts⟩, ?_, rfl, List.forall_mem_append.2 ⟨hg, hfront⟩, ?_⟩
  · rw [Cutting.text, Cutting.text, List.append_assoc]
  · rw [← List.append_assoc]
    exact hmunch

theorem lexeme (ht : Munched before t (cs ++ behind)) (h : Cuts (before ++ t.text.toList) cs behind ts) :
    Cuts before (t.text.toList ++ cs) behind (t :: ts) := by
  obtain ⟨⟨front, parts⟩, rfl, rfl, hfront, hmunch⟩ := h
  rw [Cutting.text, List.append_assoc] at ht
  refine ⟨⟨[], (t, front) :: parts⟩, ?_, rfl, List.forall_mem_nil _, ?_⟩
  · rw [Cutting.text, Cutting.text, joined_cons, List.nil_append]
  · rw [List.append_nil]
    exact ⟨hfront, ht, List.append_assoc _ _ front ▸ hmunch⟩

end Cuts

/-- Every text without a NUL can be cut, and its lexemes are those that the scanner finds. -/
theorem cuts_lexemes (before cs : List Char) (h0 : nul ∉ cs) (hb : Parted before cs) :
    Cuts before cs [] (lexemes cs) := by
  fun_induction lexemes cs generalizing before with
  | case1 cs hnil =>
    rw [← List.append_nil cs]
    exact .blanks (List.dropWhile_eq_nil_iff.1 hnil) .nil
  | case2 cs rest hcons => exact absurd ((List.dropWhile_suffix isGap).subset (by rw [hcons]; simp)) h0
  | case3 cs c rest hcons hc found ih =>
    have hcs : cs = cs.takeWhile isGap ++ c :: rest := by rw [← hcons, List.takeWhile_append_dropWhile]
    have hgap : ∀ c ∈ cs.takeWhile isGap, isGap c = true := fun c hc => List.mem_takeWhile_imp hc
    have hfirst : isGap c = false := head_of_dropWhile hcons
    rw [hcs] at hb ⊢
    obtain ⟨ht, htext⟩ := munched_scanFrom hfirst (hb.blanks hgap)
    rw [← htext]
    exact .blanks hgap (.lexeme (by rwa [List.append_nil]) (ih _ (nul_not_mem_behind h0 hcons) ht.parted))

/-- The characters of a lexeme stand in the text. -/
theorem subset_of_mem_lexemes {cs : List Char} (h0 : nul ∉ cs) {t : Lexeme} (ht : t ∈ lexemes cs) :
    ∀ c ∈ t.text.toList, c ∈ cs := by
  obtain ⟨c, rfl, hlex, -⟩ := cuts_lexemes [] cs h0 fun a ha => nomatch ha
  rw [← hlex, Cutting.lexemes, List.mem_map] at ht
  obtain ⟨p, hp, rfl⟩ := ht
  intro x hx
  exact List.mem_append_right _ (List.mem_flatMap.2 ⟨p, hp, List.mem_append_left _ hx⟩)

theorem Cutting.MaximalMunch.lexemes_eq {c : Cutting} (h : c.MaximalMunch) (h0 : nul ∉ c.text) :
    c.lexemes = LineLang.lexemes c.text := by
  obtain ⟨c', htext, hlex, hmax⟩ := cuts_lexemes [] c.text h0 fun a ha => nomatch ha
  rw [← hlex, h.unique hmax htext.symm]

/-! ## Texts one behind the other -/

/-- A character with which no lexeme goes on. -/
def Breaks (x : Char) : Prop := isLetter x = false ∧ isDigit x = false ∧ ∀ c, pairKinds.lookup (c, x) = none

theorem breaks_of_not_mem {x : Char} (hl : isLetter x = false) (hd : isDigit x = false)
    (hp : ∀ p ∈ pairKinds, p.1.2 ≠ x) : Breaks x := by
  refine ⟨hl, hd, fun c => List.lookup_eq_none_iff.2 fun p hmem => bne_iff_ne.2 fun h => hp p hmem ?_⟩
  rw [← h]

theorem breaks_newline : Breaks '\n' := breaks_of_not_mem rfl rfl (by simp [pairKinds])

theorem breaks_nul : Breaks nul := breaks_of_not_mem rfl rfl (by simp [pairKinds, nul])

theorem Munched.append {x : Char} (h : Munched before t behind) (hx : Breaks x) (more : List Char) :
    Munched before t (behind ++ x :: more) := by
  have head : ∀ c ∈ (behind ++ x :: more).head?, c ∈ behind.head? ∨ c = x := by
    cases behind with
    | nil => exact fun c hc => .inr (Option.some.inj hc).symm
    | cons b behind => exact fun c hc => .inl hc
  cases h with
  | word hne hl hbefore hbehind hk =>
    refine .word hne hl hbefore (fun c hc => ?_) hk
    rcases head c hc with hc | rfl
    · exact hbehind c hc
    · exact hx.1
  | number hne hd hbefore hbehind hk =>
    refine .number hne hd hbefore (fun c hc => ?_) hk
    rcases head c hc with hc | rfl
    · exact hbehind c hc
    · exact hx.2.1
  | pair hab hk => exact .pair hab hk
  | single hy hl hd hg halone hk =>
    refine .single hy hl hd hg (fun c hc => ?_) hk
    rcases head c hc with hc | rfl
    · exact halone c hc
    · exact hx.2.2 _

/-- The lexemes in front of a character with which no lexeme goes on do not depend on what follows. -/
theorem lexemes_append {cs : List Char} (h0 : nul ∉ cs) {x : Char} (hx : Breaks x) (more : List Char) :
    lexemes (cs ++ x :: more) = lexemes cs ++ lexemes (x :: more) := by
  fun_induction lexemes cs with
  | case1 cs hnil => exact lexemes_gap (List.dropWhile_eq_nil_iff.1 hnil)
  | case2 cs rest hcons => exact absurd ((List.dropWhile_suffix isGap).subset (by rw [hcons]; simp)) h0
  | case3 cs c rest hcons hc found ih =>
    have hfirst : isGap c = false := head_of_dropWhile hcons
    have hstart : Parted [] (c :: rest) := fun a ha => by cases ha
    obtain ⟨ht, htext⟩ := munched_scanFrom hfirst hstart
    -- the lexeme does not go on with `x`, so it is found in front of `x` too
    have hscan : scanFrom c (rest ++ x :: more) = (found.1, found.2 ++ x :: more) := by
      apply (ht.append hx more).scanFrom_eq
      rw [← List.append_assoc, htext, List.cons_append]
    have hdrop : (cs ++ x :: more).dropWhile isGap = c :: (rest ++ x :: more) := by
      rw [List.dropWhile_append, hcons]
      rfl
    rw [lexemes_of_cons hdrop, if_neg hc, hscan]
    dsimp only
    rw [ih (nul_not_mem_behind h0 hcons), List.cons_append]

theorem nul_not_mem_takeWhile (cs : List Char) : nul ∉ cs.takeWhile (· ≠ nul) :=
  fun h => by simpa using List.mem_takeWhile_imp h

/-- What stands behind the first NUL does not matter. -/
theorem lexemes_takeWhile (cs : List Char) : lexemes (cs.takeWhile (· ≠ nul)) = lexemes cs := by
  cases hd : cs.dropWhile (· ≠ nul) with
  | nil => rw [List.takeWhile_eq_self_iff.2 (List.dropWhile_eq_nil_iff.1 hd)]
  | cons c more =>
    have hc : decide (c ≠ nul) = false := head_of_dropWhile hd
    obtain rfl : c = nul := by simpa using hc
    have hnil : lexemes (nul :: more) = [] := by rw [lexemes_of_cons rfl, if_pos rfl]
    have hcs : cs = cs.takeWhile (· ≠ nul) ++ nul :: more := by rw [← hd, List.takeWhile_append_dropWhile]
    calc lexemes (cs.takeWhile (· ≠ nul))
        = lexemes (cs.takeWhile (· ≠ nul)) ++ lexemes (nul :: more) := by rw [hnil, List.append_nil]
      _ = lexemes cs := by rw [← lexemes_append (nul_not_mem_takeWhile cs) breaks_nul, ← hcs]

/-! ## Reading to the end -/

inductive Cursor.ReadsAll : Cursor → List Lexeme → Cursor → Prop where
  | done {c : Cursor} (h : c.next.1.kind = .eof) : ReadsAll c [c.next.1] c.next.2
  | more {c c' : Cursor} {ts : List Lexeme} (h : c.next.1.kind ≠ .eof) (hr : ReadsAll c.next.2 ts c') :
    ReadsAll c (c.next.1 :: ts) c'

/-- Reading ends with the end of the text, and from then on the cursor stays in place. -/
theorem Cursor.readsAll {c : Cursor} {ts : List Lexeme} (h : lexemes c.rest = ts) :
    ∃ c', c.ReadsAll (ts ++ [.eof]) c' ∧ c'.next = (.eof, c') := by
  have hnext : c.next.1 = ts.headD .eof := h ▸ scan_fst _
  induction ts generalizing c with
  | nil =>
    refine ⟨c.next.2, ?_, Cursor.next_next h⟩
    rw [List.nil_append, ← show c.next.1 = .eof from hnext]
    exact .done (by rw [hnext]; rfl)
  | cons t ts ih =>
    have hrest : lexemes c.next.2.rest = ts := (lexemes_scan c.rest).trans (by rw [h, List.tail_cons])
    obtain ⟨c', hc', hlast⟩ := ih hrest (hrest ▸ scan_fst _)
    have hkind : c.next.1.kind ≠ .eof := by
      apply Tolerant.unended_start (String.ofList c.rest)
      rw [Tolerant.Parser.start, String.toList_ofList, h, hnext]
      exact List.mem_cons_self
    refine ⟨c', ?_, hlast⟩
    rw [List.cons_append, ← show c.next.1 = t from hnext]
    exact .more hkind hc'

/-- A text up to its first NUL can be cut into blanks and lexemes that are as long as they can be, in one way. Those
are the lexemes of the text: reading them one by one ends, with one end of the text behind them, and each further
lexeme is again the end of the text. -/
theorem lexemes_maximal_munch (s : String) :
    ∃ c : Cutting, (c.text = s.toList.takeWhile (· ≠ nul) ∧ c.MaximalMunch ∧
        ∀ c' : Cutting, c'.text = s.toList.takeWhile (· ≠ nul) → c'.MaximalMunch → c' = c) ∧
      c.lexemes = lexemes s.toList ∧
      ∃ last, (Cursor.start s).ReadsAll (c.lexemes ++ [.eof]) last ∧ last.next = (.eof, last) := by
  obtain ⟨c, htext, hlex, hmax⟩ := cuts_lexemes [] _ (nul_not_mem_takeWhile s.toList) fun a ha => nomatch ha
  rw [lexemes_takeWhile] at hlex
  refine ⟨c, ⟨htext, hmax, fun c' htext' h' => h'.unique hmax (htext'.trans htext.symm)⟩, hlex, ?_⟩
  rw [hlex]
  exact Cursor.readsAll rfl

end LineLang
