import LineLang.Strict.Terminal
import Mathlib.Data.List.TakeWhile

/-!
# Texts and their terminals

* `Spells k cs` : the characters `cs` are a terminal of kind `k`. Keywords are no names;
* `Longest t rest` : no terminal at the front of `t` and `rest` is longer than `t`;
* `Splits cs ts` : `cs` is cut into the terminals `ts`, each as long as possible, with spaces and tabs between;
* `splits_iff_scan` : the scanner cuts a text if there is a way to cut it, and in that way;
* `lexemes_of_splits` : the lexemes of such a text are its terminals, with a line feed for each one of a line end.
-/

namespace LineLang.Strict

/-- The words that are no names. -/
def keywords : List (List Char) :=
  [['p', 'r', 'i', 'n', 't'], ['i', 'f'], ['e', 'l', 's', 'e'], ['w', 'h', 'i', 'l', 'e']]

def Spells : Kind → List Char → Prop
  | .ident, cs => cs ≠ [] ∧ (∀ c ∈ cs, isLetter c = true) ∧ cs ∉ keywords
  | .num, cs => cs ≠ [] ∧ ∀ c ∈ cs, isDigit c = true
  | .newline, cs => ∃ tail, cs = '\n' :: tail ∧ ∀ c ∈ tail, c = '\n' ∨ isGap c = true
  | .printWord, cs => cs = ['p', 'r', 'i', 'n', 't']
  | .ifWord, cs => cs = ['i', 'f']
  | .elseWord, cs => cs = ['e', 'l', 's', 'e']
  | .whileWord, cs => cs = ['w', 'h', 'i', 'l', 'e']
  | .lparen, cs => cs = ['(']
  | .rparen, cs => cs = [')']
  | .lbrace, cs => cs = ['\x7b']
  | .rbrace, cs => cs = ['\x7d']
  | .plus, cs => cs = ['+']
  | .minus, cs => cs = ['-']
  | .star, cs => cs = ['*']
  | .slash, cs => cs = ['/']
  | .percent, cs => cs = ['%']
  | .assign, cs => cs = ['=']
  | .equal, cs => cs = ['=', '=']
  | .notEqual, cs => cs = ['!', '=']
  | .both, cs => cs = ['&', '&']
  | .either, cs => cs = ['|', '|']
  | .less, cs => cs = ['<']
  | .greater, cs => cs = ['>']
  | .atMost, cs => cs = ['<', '=']
  | .atLeast, cs => cs = ['>', '=']
  | .comma, _ => False
  | .illegal, _ => False
  | .eof, _ => False

/-- A lexeme that is a terminal of the grammar. -/
def IsTerminal (t : Lexeme) : Prop := Spells t.kind t.text.toList

def Longest (t : Lexeme) (rest : List Char) : Prop :=
  ∀ u, IsTerminal u → u.text.toList <+: t.text.toList ++ rest → u.text.toList.length ≤ t.text.toList.length

inductive Splits : List Char → List Lexeme → Prop where
  | done {gap : List Char} (hg : ∀ c ∈ gap, isGap c = true) : Splits gap []
  | next {gap rest : List Char} {t : Lexeme} {ts : List Lexeme} (hg : ∀ c ∈ gap, isGap c = true)
    (ht : IsTerminal t) (hl : Longest t rest) (h : Splits rest ts) :
    Splits (gap ++ (t.text.toList ++ rest)) (t :: ts)

/-! ## Runs of characters -/

section Runs
variable {p : Char → Bool} {xs cs rest : List Char} {c : Char}

/-- A run that does not go on behind `xs`. -/
theorem takeWhile_run (hx : ∀ x ∈ xs, p x = true) (hc : ∀ c ∈ cs.head?, p c = false) : (xs ++ cs).takeWhile p = xs := by
  rw [List.takeWhile_append_of_pos hx]
  cases cs with
  | nil => simp
  | cons c cs => simp [hc c rfl]

theorem dropWhile_run (hx : ∀ x ∈ xs, p x = true) (hc : ∀ c ∈ cs.head?, p c = false) : (xs ++ cs).dropWhile p = cs := by
  rw [List.dropWhile_append_of_pos hx]
  cases cs with
  | nil => rfl
  | cons c cs => rw [List.dropWhile_cons_of_neg (by simp [hc c rfl])]

theorem head_of_dropWhile (h : cs.dropWhile p = c :: rest) : p c = false := by
  have hc := List.head?_dropWhile_not p cs
  rw [h] at hc
  simpa using hc

theorem head?_dropWhile : ∀ c ∈ (cs.dropWhile p).head?, p c = false := by
  intro c hc
  obtain ⟨rest, h⟩ := List.head?_eq_some_iff.1 hc
  exact head_of_dropWhile h

end Runs

/-! ## Kinds of terminals -/

theorem ofWord_cases (w : String) :
    (w.toList ∉ keywords ∧ Kind.ofWord w = .ident) ∨ (w = "print" ∧ Kind.ofWord w = .printWord) ∨
      (w = "if" ∧ Kind.ofWord w = .ifWord) ∨ (w = "else" ∧ Kind.ofWord w = .elseWord) ∨
      (w = "while" ∧ Kind.ofWord w = .whileWord) := by
  unfold Kind.ofWord
  split
  · next h => exact .inr (.inl ⟨h, rfl⟩)
  split
  · next h => exact .inr (.inr (.inl ⟨h, rfl⟩))
  split
  · next h => exact .inr (.inr (.inr (.inl ⟨h, rfl⟩)))
  split
  · next h => exact .inr (.inr (.inr (.inr ⟨h, rfl⟩)))
  · next h₁ h₂ h₃ h₄ =>
    refine .inl ⟨fun hk => ?_, rfl⟩
    simp only [keywords, List.mem_cons, List.not_mem_nil, or_false] at hk
    rcases hk with hk | hk | hk | hk
    · exact h₁ (String.toList_inj.1 hk)
    · exact h₂ (String.toList_inj.1 hk)
    · exact h₃ (String.toList_inj.1 hk)
    · exact h₄ (String.toList_inj.1 hk)

/-- A run of letters is a terminal. -/
theorem isTerminal_word {w : String} (hne : w.toList ≠ []) (hw : ∀ c ∈ w.toList, isLetter c = true) :
    IsTerminal ⟨.ofWord w, w⟩ := by
  rcases ofWord_cases w with ⟨hk, h⟩ | ⟨rfl, h⟩ | ⟨rfl, h⟩ | ⟨rfl, h⟩ | ⟨rfl, h⟩
  · rw [IsTerminal, h]
    exact ⟨hne, hw, hk⟩
  all_goals rw [IsTerminal, h]; rfl

/-- A terminal is a word, a number, a line end or a symbol, and its first character tells which. -/
theorem IsTerminal.cases {t : Lexeme} (h : IsTerminal t) :
    ∃ c cs, t.text.toList = c :: cs ∧
      ((isLetter c = true ∧ (∀ x ∈ cs, isLetter x = true) ∧ t.kind = .ofWord t.text) ∨
        (isDigit c = true ∧ (∀ x ∈ cs, isDigit x = true) ∧ t.kind = .num) ∨
        (c = '\n' ∧ (∀ x ∈ cs, isLayout x = true) ∧ t.kind = .newline) ∨
        (c :: cs, t.kind) ∈ symbols) := by
  obtain ⟨k, w⟩ := t
  have key : ∀ {v : String}, w.toList = v.toList → Kind.ofWord v = k → k = Kind.ofWord w := by
    intro v hv hk
    rw [String.toList_inj.1 hv, hk]
  cases k with
  | ident =>
    obtain ⟨hne, hl, hk⟩ := h
    obtain ⟨c, cs, hw⟩ := List.exists_cons_of_ne_nil hne
    refine ⟨c, cs, hw, .inl ⟨hl c (by simp [hw]), fun x hx => hl x (by simp [hw, hx]), ?_⟩⟩
    rcases ofWord_cases w with ⟨-, h⟩ | ⟨rfl, -⟩ | ⟨rfl, -⟩ | ⟨rfl, -⟩ | ⟨rfl, -⟩
    · exact h.symm
    all_goals exact absurd (by decide) hk
  | num =>
    obtain ⟨hne, hd⟩ := h
    obtain ⟨c, cs, hw⟩ := List.exists_cons_of_ne_nil hne
    exact ⟨c, cs, hw, .inr (.inl ⟨hd c (by simp [hw]), fun x hx => hd x (by simp [hw, hx]), rfl⟩)⟩
  | newline =>
    obtain ⟨cs, hw, hl⟩ := h
    exact ⟨_, cs, hw, .inr (.inr (.inl ⟨rfl, fun x hx => by simpa [isLayout] using hl x hx, rfl⟩))⟩
  | printWord => exact ⟨_, _, h, .inl ⟨rfl, List.all_eq_true.1 rfl, key (v := "print") h (by decide)⟩⟩
  | ifWord => exact ⟨_, _, h, .inl ⟨rfl, List.all_eq_true.1 rfl, key (v := "if") h (by decide)⟩⟩
  | elseWord => exact ⟨_, _, h, .inl ⟨rfl, List.all_eq_true.1 rfl, key (v := "else") h (by decide)⟩⟩
  | whileWord => exact ⟨_, _, h, .inl ⟨rfl, List.all_eq_true.1 rfl, key (v := "while") h (by decide)⟩⟩
  | comma => exact h.elim
  | illegal => exact h.elim
  | eof => exact h.elim
  | _ => exact ⟨_, _, h, .inr (.inr (.inr (by simp [symbols])))⟩

theorem isTerminal_symbol {spelling : List Char} {k : Kind} (h : (spelling, k) ∈ symbols) :
    IsTerminal ⟨k, String.ofList spelling⟩ := by
  have all : ∀ p ∈ symbols, Spells p.2 p.1 := by
    simp [symbols, Spells]
  rw [IsTerminal, String.toList_ofList]
  exact all _ h

theorem symbol_start {c : Char} {cs : List Char} {k : Kind} (h : (c :: cs, k) ∈ symbols) :
    isLetter c = false ∧ isDigit c = false ∧ c ≠ '\n' ∧ isGap c = false ∧ c ≠ nul := by
  have all : symbols.all (fun p => p.1.head?.all fun x =>
      !isLetter x && !isDigit x && x != '\n' && !isGap x && x != nul) = true := by decide
  have hc := List.all_eq_true.1 all _ h
  simp only [List.head?_cons, Option.all_some, Bool.and_eq_true, Bool.not_eq_true', bne_iff_ne, ne_eq] at hc
  obtain ⟨⟨⟨⟨hl, hd⟩, hn⟩, hg⟩, h0⟩ := hc
  exact ⟨hl, hd, hn, hg, h0⟩

theorem not_letter_of_digit {c : Char} (h : isDigit c = true) : isLetter c = false := by
  simp [isDigit, isLetter, Char.le_def, UInt32.le_iff_toNat_le] at h ⊢
  omega

/-! ## The terminal at the front -/

/-- A run of characters is the longest terminal at the front if every terminal that begins like it is such a
run. -/
theorem longest_run {p : Char → Bool} {t : Lexeme} {c : Char} {cs : List Char}
    (ht : t.text.toList = c :: cs.takeWhile p)
    (hu : ∀ u, IsTerminal u → ∀ xs, u.text.toList = c :: xs → ∀ x ∈ xs, p x = true) :
    Longest t (cs.dropWhile p) := by
  intro u hterm hpre
  rw [ht, List.cons_append, List.takeWhile_append_dropWhile] at hpre
  obtain ⟨x, xs, hx, -⟩ := hterm.cases
  rw [hx] at hpre
  obtain ⟨rfl, r, rfl⟩ := List.cons_prefix_cons.1 hpre
  rw [hx, ht, List.takeWhile_append_of_pos (hu u hterm xs hx)]
  simp

/-- The symbol found at the front is in the table, and no longer one stands there. -/
theorem symbol?_spec {cs : List Char} {t : Lexeme} (h : symbol? cs = some t) :
    ∃ spelling, (spelling, t.kind) ∈ symbols ∧ t.text = String.ofList spelling ∧ spelling <+: cs ∧
      ∀ p ∈ symbols, p.1 <+: cs → p.1.length ≤ spelling.length := by
  -- the longer symbols come first in the table
  have sorted : symbols.Pairwise fun p q => q.1.length ≤ p.1.length := by decide
  obtain ⟨before, ⟨spelling, k⟩, behind, hs, hf, hn⟩ := List.findSome?_eq_some_iff.1 h
  by_cases hp : spelling.isPrefixOf cs = true
  · simp only [if_pos hp, Option.some.injEq] at hf
    subst hf
    refine ⟨spelling, by simp [hs], rfl, List.isPrefixOf_iff_prefix.1 hp, fun q hq hpre => ?_⟩
    rw [hs] at hq sorted
    rcases List.mem_append.1 hq with hq | hq
    · have hno := hn q hq
      simp only [if_pos (List.isPrefixOf_iff_prefix.2 hpre)] at hno
      cases hno
    · rcases List.mem_cons.1 hq with rfl | hq
      · exact Nat.le_refl _
      · exact List.rel_of_pairwise_cons (List.pairwise_append.1 sorted).2.1 hq
  · simp only [if_neg hp] at hf
    cases hf

theorem IsTerminal.letters {u : Lexeme} (hu : IsTerminal u) {c : Char} {xs : List Char}
    (hx : u.text.toList = c :: xs) (hc : isLetter c = true) :
    (∀ x ∈ xs, isLetter x = true) ∧ u.kind = .ofWord u.text := by
  obtain ⟨d, ds, hd, h⟩ := hu.cases
  obtain ⟨rfl, rfl⟩ := List.cons.inj (hx.symm.trans hd)
  rcases h with ⟨-, h⟩ | ⟨h, -⟩ | ⟨rfl, -⟩ | h
  · exact h
  · rw [not_letter_of_digit h] at hc
    cases hc
  · cases hc
  · rw [(symbol_start h).1] at hc
    cases hc

theorem IsTerminal.digits {u : Lexeme} (hu : IsTerminal u) {c : Char} {xs : List Char}
    (hx : u.text.toList = c :: xs) (hc : isDigit c = true) :
    (∀ x ∈ xs, isDigit x = true) ∧ u.kind = .num := by
  obtain ⟨d, ds, hd, h⟩ := hu.cases
  obtain ⟨rfl, rfl⟩ := List.cons.inj (hx.symm.trans hd)
  rcases h with ⟨h, -⟩ | ⟨-, h⟩ | ⟨rfl, -⟩ | h
  · rw [not_letter_of_digit hc] at h
    cases h
  · exact h
  · cases hc
  · rw [(symbol_start h).2.1] at hc
    cases hc

theorem IsTerminal.lineEnd {u : Lexeme} (hu : IsTerminal u) {xs : List Char} (hx : u.text.toList = '\n' :: xs) :
    (∀ x ∈ xs, isLayout x = true) ∧ u.kind = .newline := by
  obtain ⟨d, ds, hd, h⟩ := hu.cases
  obtain ⟨rfl, rfl⟩ := List.cons.inj (hx.symm.trans hd)
  rcases h with ⟨h, -⟩ | ⟨h, -⟩ | ⟨-, h⟩ | h
  · cases h
  · cases h
  · exact h
  · exact absurd rfl (symbol_start h).2.2.1

theorem IsTerminal.symbol {u : Lexeme} (hu : IsTerminal u) {c : Char} {xs : List Char}
    (hx : u.text.toList = c :: xs) (hl : ¬ isLetter c = true) (hd : ¬ isDigit c = true) (hn : c ≠ '\n') :
    (c :: xs, u.kind) ∈ symbols := by
  obtain ⟨d, ds, hd', h⟩ := hu.cases
  obtain ⟨rfl, rfl⟩ := List.cons.inj (hx.symm.trans hd')
  rcases h with ⟨h, -⟩ | ⟨h, -⟩ | ⟨h, -⟩ | h
  · exact absurd h hl
  · exact absurd h hd
  · exact absurd h hn
  · exact h

theorem terminal?_sound {c : Char} {cs : List Char} {t : Lexeme} (h : terminal? c cs = some t) :
    IsTerminal t ∧ ∃ rest, c :: cs = t.text.toList ++ rest ∧ Longest t rest := by
  unfold terminal? at h
  split at h
  · next hc =>
    obtain rfl := Option.some.inj h
    refine ⟨isTerminal_word (by simp) ?_, cs.dropWhile isLetter, by simp, longest_run String.toList_ofList ?_⟩
    · simpa [hc] using fun x hx => List.mem_takeWhile_imp hx
    · exact fun u hu xs hx => (hu.letters hx hc).1
  split at h
  · next hc =>
    obtain rfl := Option.some.inj h
    refine ⟨⟨by simp, ?_⟩, cs.dropWhile isDigit, by simp, longest_run String.toList_ofList ?_⟩
    · simpa [hc] using fun x hx => List.mem_takeWhile_imp hx
    · exact fun u hu xs hx => (hu.digits hx hc).1
  split at h
  · next hc =>
    subst hc
    obtain rfl := Option.some.inj h
    refine ⟨⟨cs.takeWhile isLayout, by simp, ?_⟩, cs.dropWhile isLayout, by simp, longest_run String.toList_ofList ?_⟩
    · intro x hx
      simpa [isLayout] using List.mem_takeWhile_imp hx
    · exact fun u hu xs hx => (hu.lineEnd hx).1
  · next hl hd hn =>
    obtain ⟨spelling, hmem, htext, ⟨rest, hrest⟩, hlong⟩ := symbol?_spec h
    have ht : t = ⟨t.kind, String.ofList spelling⟩ := by rw [← htext]
    refine ⟨ht ▸ isTerminal_symbol hmem, rest, by rw [htext, String.toList_ofList, hrest], ?_⟩
    intro u hu hpre
    rw [htext, String.toList_ofList, hrest] at hpre
    obtain ⟨d, ds, hd', -⟩ := hu.cases
    obtain rfl : d = c := (List.cons_prefix_cons.1 (hd' ▸ hpre)).1
    have hs := hu.symbol hd' hl hd hn
    rw [htext, String.toList_ofList]
    exact hlong (u.text.toList, u.kind) (hd' ▸ hs) hpre

theorem isSome_terminal? {c : Char} {cs : List Char} {u : Lexeme} (hu : IsTerminal u)
    (hpre : u.text.toList <+: c :: cs) : (terminal? c cs).isSome = true := by
  obtain ⟨d, ds, hd', -⟩ := hu.cases
  obtain rfl : d = c := (List.cons_prefix_cons.1 (hd' ▸ hpre)).1
  unfold terminal?
  split
  · rfl
  split
  · rfl
  split
  · rfl
  · next hl hd hn =>
    rw [symbol?, List.findSome?_isSome_iff]
    refine ⟨_, hu.symbol hd' hl hd hn, ?_⟩
    rw [hd', ← List.isPrefixOf_iff_prefix] at hpre
    simp only [hpre, if_true, Option.isSome_some]

theorem IsTerminal.ext {t u : Lexeme} (ht : IsTerminal t) (hu : IsTerminal u) (h : t.text = u.text) : t = u := by
  have unique : ∀ p ∈ symbols, ∀ q ∈ symbols, p.1 = q.1 → p.2 = q.2 := by decide
  have hk : t.kind = u.kind := by
    obtain ⟨c, cs, hc, hcase⟩ := ht.cases
    have hc' : u.text.toList = c :: cs := h ▸ hc
    rcases hcase with ⟨hl, -, hk⟩ | ⟨hd, -, hk⟩ | ⟨rfl, -, hk⟩ | hs
    · rw [hk, (hu.letters hc' hl).2, h]
    · rw [hk, (hu.digits hc' hd).2]
    · rw [hk, (hu.lineEnd hc').2]
    · obtain ⟨hl, hd, hn, -⟩ := symbol_start hs
      exact unique _ hs _ (hu.symbol hc' (by simp [hl]) (by simp [hd]) hn) rfl
  cases t; cases u
  simp only at h hk
  rw [h, hk]

/-- The terminal found at the front is the longest one there. -/
theorem terminal?_eq_some_iff {c : Char} {cs : List Char} {t : Lexeme} :
    terminal? c cs = some t ↔ IsTerminal t ∧ ∃ rest, c :: cs = t.text.toList ++ rest ∧ Longest t rest := by
  refine ⟨terminal?_sound, fun ⟨ht, rest, hrest, hl⟩ => ?_⟩
  have hpre : t.text.toList <+: c :: cs := ⟨rest, hrest.symm⟩
  obtain ⟨u, hu⟩ := Option.isSome_iff_exists.1 (isSome_terminal? ht hpre)
  obtain ⟨hut, rest', hrest', hl'⟩ := terminal?_sound hu
  have hpre' : u.text.toList <+: c :: cs := ⟨rest', hrest'.symm⟩
  have hlen : u.text.toList.length = t.text.toList.length :=
    Nat.le_antisymm (hl u hut (hrest ▸ hpre')) (hl' t ht (hrest' ▸ hpre))
  have htext : u.text.toList = t.text.toList :=
    (List.prefix_of_prefix_length_le hpre' hpre (Nat.le_of_eq hlen)).eq_of_length hlen
  rw [hu, hut.ext ht (String.toList_inj.1 htext)]

/-! ## Whole texts -/

/-- No terminal begins with a blank or with the mark for the end of a text. -/
theorem IsTerminal.start {t : Lexeme} (ht : IsTerminal t) {c : Char} {cs : List Char}
    (h : t.text.toList = c :: cs) : isGap c = false ∧ c ≠ nul := by
  have other : ∀ x, isGap x = true ∨ x = nul → isLetter x = false ∧ isDigit x = false ∧ x ≠ '\n' := by
    intro x hx
    simp only [isGap, Bool.or_eq_true, decide_eq_true_eq] at hx
    rcases hx with (rfl | rfl) | rfl <;> decide
  obtain ⟨d, ds, hd, hcase⟩ := ht.cases
  obtain ⟨rfl, rfl⟩ := List.cons.inj (h.symm.trans hd)
  rw [← Bool.not_eq_true, ← not_or]
  intro hx
  obtain ⟨hl, hd, hn⟩ := other c hx
  rcases hcase with ⟨hc, -⟩ | ⟨hc, -⟩ | ⟨hc, -⟩ | hs
  · cases hl.symm.trans hc
  · cases hd.symm.trans hc
  · exact hn hc
  · obtain ⟨-, -, -, hg, h0⟩ := symbol_start hs
    rcases hx with hx | hx
    · cases hg.symm.trans hx
    · exact h0 hx

theorem scanFrom_of_nil {place : Text.Position} {cs : List Char} (h : cs.dropWhile isGap = []) :
    scanFrom place cs = ⟨[], .complete⟩ := by
  rw [scanFrom]
  split
  · rfl
  · next h' => cases h.symm.trans h'

theorem scanFrom_of_cons (place : Text.Position) {cs rest : List Char} {c : Char}
    (h : cs.dropWhile isGap = c :: rest) :
    ∃ place', ∃ more : Lexeme → Text.Position, scanFrom place cs =
      match terminal? c rest with
      | none => ⟨[], .strange c place'⟩
      | some t =>
        let scanned := scanFrom (more t) (rest.drop (t.text.toList.length - 1))
        ⟨⟨t, place'⟩ :: scanned.terminals, scanned.ending⟩ := by
  rw [scanFrom]
  split
  · next h' => cases h.symm.trans h'
  · next c' rest' h' =>
    obtain ⟨rfl, rfl⟩ := List.cons.inj (h.symm.trans h')
    exact ⟨_, _, rfl⟩

theorem terminal?_append {t : Lexeme} {rest : List Char} (ht : IsTerminal t) (hl : Longest t rest) :
    ∃ c cs, t.text.toList ++ rest = c :: cs ∧ isGap c = false ∧ c ≠ nul ∧ terminal? c cs = some t ∧
      cs.drop (t.text.toList.length - 1) = rest := by
  obtain ⟨c, cs, hc, -⟩ := ht.cases
  obtain ⟨hg, h0⟩ := ht.start hc
  refine ⟨c, cs ++ rest, by rw [hc, List.cons_append], hg, h0, ?_, by simp [hc]⟩
  exact terminal?_eq_some_iff.2 ⟨ht, rest, by rw [hc, List.cons_append], hl⟩

theorem scan_of_splits {cs : List Char} {ts : List Lexeme} (h : Splits cs ts) (place : Text.Position) :
    (scanFrom place cs).ending = .complete ∧ (scanFrom place cs).terminals.map Placed.lexeme = ts := by
  induction h generalizing place with
  | done hg =>
    rw [scanFrom_of_nil (List.dropWhile_eq_nil_iff.2 hg)]
    exact ⟨rfl, rfl⟩
  | @next gap rest t ts hg ht hl _ ih =>
    obtain ⟨c, cs, hc, hgap, -, hsome, hdrop⟩ := terminal?_append ht hl
    have hcons : (gap ++ (t.text.toList ++ rest)).dropWhile isGap = c :: cs := by
      rw [hc]
      exact dropWhile_run hg (by simpa using hgap)
    obtain ⟨place', more, hscan⟩ := scanFrom_of_cons place hcons
    simp only [hsome, hdrop] at hscan
    obtain ⟨hend, hmap⟩ := ih (more t)
    rw [hscan]
    exact ⟨hend, by rw [List.map_cons, hmap]⟩

theorem Splits.gap {gap cs : List Char} {ts : List Lexeme} (hg : ∀ c ∈ gap, isGap c = true) (h : Splits cs ts) :
    Splits (gap ++ cs) ts := by
  have both : ∀ {more : List Char}, (∀ c ∈ more, isGap c = true) → ∀ c ∈ gap ++ more, isGap c = true :=
    fun hm => List.forall_mem_append.2 ⟨hg, hm⟩
  cases h with
  | done hm => exact .done (both hm)
  | next hm ht hl h =>
    rw [← List.append_assoc]
    exact .next (both hm) ht hl h

theorem Splits.cons {c : Char} {cs : List Char} {t : Lexeme} {ts : List Lexeme}
    (ht : terminal? c cs = some t) (h : Splits (cs.drop (t.text.toList.length - 1)) ts) :
    Splits (c :: cs) (t :: ts) := by
  obtain ⟨hterm, rest, hrest, hl⟩ := terminal?_sound ht
  obtain ⟨d, ds, hd, -⟩ := hterm.cases
  have hcs : cs = ds ++ rest := by
    rw [hd, List.cons_append] at hrest
    exact (List.cons.inj hrest).2
  have hdrop : cs.drop (t.text.toList.length - 1) = rest := by
    rw [hcs, hd]
    simp
  have hg : ∀ x ∈ ([] : List Char), isGap x = true := by simp
  rw [hrest]
  exact .next hg hterm hl (hdrop ▸ h)

theorem splits_of_scan {place : Text.Position} {cs : List Char} (h : (scanFrom place cs).ending = .complete) :
    Splits cs ((scanFrom place cs).terminals.map Placed.lexeme) := by
  fun_induction scanFrom place cs with
  | case1 place cs hnil => exact .done (List.dropWhile_eq_nil_iff.1 hnil)
  | case2 => cases h
  | case3 place cs c rest hcons place' t hsome spelling more ih =>
    have hcut := (Splits.cons hsome (ih h)).gap fun x (hx : x ∈ cs.takeWhile isGap) => List.mem_takeWhile_imp hx
    rwa [← hcons, List.takeWhile_append_dropWhile] at hcut

/-- The scanner cuts a text into the terminals of which it consists, if it does consist of terminals. -/
theorem splits_iff_scan {cs : List Char} {ts : List Lexeme} :
    Splits cs ts ↔ (scan cs).ending = .complete ∧ (scan cs).terminals.map Placed.lexeme = ts :=
  ⟨fun h => scan_of_splits h .start, fun ⟨hend, hmap⟩ => hmap ▸ splits_of_scan hend⟩

/-- A text can be cut in one way only. -/
theorem Splits.unique {cs : List Char} {ts us : List Lexeme} (h : Splits cs ts) (h' : Splits cs us) : ts = us :=
  (splits_iff_scan.1 h).2.symm.trans (splits_iff_scan.1 h').2

theorem Splits.isTerminal {cs : List Char} {ts : List Lexeme} (h : Splits cs ts) : ∀ t ∈ ts, IsTerminal t := by
  induction h with
  | done => simp
  | next _ ht _ _ ih => exact List.forall_mem_cons.2 ⟨ht, ih⟩

/-! ## Lexemes of a text that has been cut -/

/-- The lexemes of a terminal: a line end has one for each of its line feeds. -/
def pieces (t : Lexeme) : List Lexeme :=
  if t.kind = .newline then List.replicate (t.text.toList.count '\n') ⟨.newline, "\n"⟩ else [t]

theorem pieces_of_ne {t : Lexeme} (h : t.kind ≠ .newline) : pieces t = [t] := if_neg h

/-- A line end is at least one line feed. -/
theorem pieces_lineEnd {t : Lexeme} (ht : IsTerminal t) (hn : t.kind = .newline) :
    ∃ n, pieces t = List.replicate (n + 1) ⟨.newline, "\n"⟩ := by
  rw [IsTerminal, hn] at ht
  obtain ⟨tail, htext, -⟩ := ht
  refine ⟨tail.count '\n', ?_⟩
  rw [pieces, if_pos hn, htext, List.count_cons_self]

theorem lexemes_of_nil {cs : List Char} (h : cs.dropWhile isGap = []) : lexemes cs = [] := by
  rw [lexemes]
  split
  · rfl
  · next h' => cases h.symm.trans h'

theorem lexemes_of_cons {cs rest : List Char} {c : Char} (h : cs.dropWhile isGap = c :: rest) :
    lexemes cs = if c = nul then [] else (LineLang.scanFrom c rest).1 :: lexemes (LineLang.scanFrom c rest).2 := by
  rw [lexemes]
  split
  · next h' => cases h.symm.trans h'
  · next c' rest' h' =>
    obtain ⟨rfl, rfl⟩ := List.cons.inj (h.symm.trans h')
    rfl

theorem lexemes_gap {gap cs : List Char} (hg : ∀ c ∈ gap, isGap c = true) : lexemes (gap ++ cs) = lexemes cs := by
  have hdrop : (gap ++ cs).dropWhile isGap = cs.dropWhile isGap := List.dropWhile_append_of_pos hg
  cases h : cs.dropWhile isGap with
  | nil => rw [lexemes_of_nil h, lexemes_of_nil (hdrop.trans h)]
  | cons c rest => rw [lexemes_of_cons h, lexemes_of_cons (hdrop.trans h)]

theorem drop_length_takeWhile (p : Char → Bool) (cs : List Char) :
    cs.drop (cs.takeWhile p).length = cs.dropWhile p := by
  have h : (cs.takeWhile p ++ cs.dropWhile p).drop (cs.takeWhile p).length = cs.dropWhile p := List.drop_left
  rwa [List.takeWhile_append_dropWhile] at h

section Symbols
variable {c second : Char} {two one k : Kind} (hl : isLetter c = false) (hd : isDigit c = false)
include hl hd

theorem scanFrom_single (hs : Kind.single? c = some k) (cs : List Char) :
    LineLang.scanFrom c cs = (⟨k, String.singleton c⟩, cs) := by
  unfold LineLang.scanFrom
  simp [hl, hd, hs]

theorem scanFrom_pair (hs : Kind.single? c = none) (hp : Kind.pair? c = some (second, two, one))
    (cs : List Char) : LineLang.scanFrom c (second :: cs) = (⟨two, String.ofList [c, second]⟩, cs) := by
  unfold LineLang.scanFrom
  simp [hl, hd, hs, hp]

theorem scanFrom_alone (hs : Kind.single? c = none) (hp : Kind.pair? c = some (second, two, one))
    {cs : List Char} (hc : cs.head? ≠ some second) :
    LineLang.scanFrom c cs = (⟨one, String.singleton c⟩, cs) := by
  unfold LineLang.scanFrom
  cases cs with
  | nil => simp [hl, hd, hs, hp]
  | cons d cs =>
    have hne : d ≠ second := by simpa using hc
    simp [hl, hd, hs, hp, hne]

end Symbols

/-- The longest symbol at the front is the lexeme there. -/
theorem scanFrom_symbol {p : List Char × Kind} (hp : p ∈ symbols) {c : Char} {cs : List Char}
    (hpre : p.1 <+: c :: cs) (hl : ∀ q ∈ symbols, q.1 <+: c :: cs → q.1.length ≤ p.1.length) :
    LineLang.scanFrom c cs = (⟨p.2, String.ofList p.1⟩, cs.drop (p.1.length - 1)) := by
  -- a symbol of one character is not the front of one of two characters
  have short : ∀ {a b j}, ([a, b], j) ∈ symbols → p.1 = [a] → cs.head? ≠ some b := by
    intro a b j hj ha hb
    obtain ⟨r, rfl⟩ := List.head?_eq_some_iff.1 hb
    obtain rfl : a = c := (List.cons_prefix_cons.1 (ha ▸ hpre)).1
    have h := hl _ hj ⟨r, rfl⟩
    rw [ha] at h
    exact absurd h (Nat.not_succ_le_self 1)
  obtain ⟨rest, hrest⟩ := hpre
  have less : (['<', '='], Kind.atMost) ∈ symbols := by decide
  have greater : (['>', '='], Kind.atLeast) ∈ symbols := by decide
  have equal : (['=', '='], Kind.equal) ∈ symbols := by decide
  simp only [symbols, List.mem_cons, List.not_mem_nil, or_false] at hp
  rcases hp with rfl | rfl | rfl | rfl | rfl | rfl | rfl | rfl | rfl | rfl | rfl | rfl | rfl | rfl | rfl | rfl |
    rfl | rfl
  all_goals obtain ⟨rfl, rfl⟩ := List.cons.inj hrest
  iterate 6 exact scanFrom_pair rfl rfl rfl rfl rest
  · exact scanFrom_alone rfl rfl rfl rfl (short less rfl)
  · exact scanFrom_alone rfl rfl rfl rfl (short greater rfl)
  iterate 5 exact scanFrom_single rfl rfl rfl rest
  · exact scanFrom_alone rfl rfl rfl rfl (short equal rfl)
  iterate 4 exact scanFrom_single rfl rfl rfl rest

/-- Outside of line ends, lexemes and terminals are the same. -/
theorem scanFrom_of_terminal? {c : Char} {cs : List Char} {t : Lexeme} (h : terminal? c cs = some t)
    (hn : t.kind ≠ .newline) : LineLang.scanFrom c cs = (t, cs.drop (t.text.toList.length - 1)) := by
  unfold terminal? at h
  split at h
  · next hc =>
    obtain rfl := Option.some.inj h
    unfold LineLang.scanFrom
    rw [if_pos hc]
    simp [drop_length_takeWhile]
  split at h
  · next hl hd =>
    obtain rfl := Option.some.inj h
    unfold LineLang.scanFrom
    rw [if_neg hl, if_pos hd]
    simp [drop_length_takeWhile]
  split at h
  · obtain rfl := Option.some.inj h
    exact absurd rfl hn
  · obtain ⟨spelling, hmem, htext, hpre, hlong⟩ := symbol?_spec h
    have ht : t = ⟨t.kind, String.ofList spelling⟩ := by rw [← htext]
    rw [scanFrom_symbol hmem hpre hlong, htext, String.toList_ofList, ← ht]

theorem lexemes_newline (cs : List Char) : lexemes ('\n' :: cs) = ⟨.newline, "\n"⟩ :: lexemes cs := by
  have hs : LineLang.scanFrom '\n' cs = (⟨.newline, "\n"⟩, cs) := scanFrom_single rfl rfl rfl cs
  rw [lexemes_of_cons (List.dropWhile_cons_of_neg (by decide)), if_neg (by decide), hs]

theorem lexemes_layout {cs rest : List Char} (h : ∀ c ∈ cs, isLayout c = true) :
    lexemes (cs ++ rest) = List.replicate (cs.count '\n') ⟨.newline, "\n"⟩ ++ lexemes rest := by
  induction cs with
  | nil => rfl
  | cons c cs ih =>
    obtain ⟨hc, hcs⟩ := List.forall_mem_cons.1 h
    by_cases hn : c = '\n'
    · subst hn
      rw [List.cons_append, lexemes_newline, ih hcs, List.count_cons_self, List.replicate_succ, List.cons_append]
    · have hg : isGap c = true := by simpa [isLayout, hn] using hc
      rw [List.cons_append, ← List.singleton_append, lexemes_gap (by simpa using hg), ih hcs,
        List.count_cons_of_ne hn]

theorem lexemes_terminal {t : Lexeme} {rest : List Char} (ht : IsTerminal t) (hl : Longest t rest) :
    lexemes (t.text.toList ++ rest) = pieces t ++ lexemes rest := by
  by_cases hn : t.kind = .newline
  · have hs := ht
    rw [IsTerminal, hn] at hs
    obtain ⟨tail, htext, htail⟩ := hs
    rw [pieces, if_pos hn]
    refine lexemes_layout fun c hc => ?_
    rw [htext] at hc
    rcases List.mem_cons.1 hc with rfl | hc
    · rfl
    · simpa [isLayout] using htail c hc
  · obtain ⟨c, cs, hc, hgap, h0, hsome, hdrop⟩ := terminal?_append ht hl
    rw [hc, lexemes_of_cons (List.dropWhile_cons_of_neg (by simp [hgap])), if_neg h0,
      scanFrom_of_terminal? hsome hn, hdrop, pieces, if_neg hn, List.singleton_append]

/-- The lexemes of a text that consists of terminals. -/
theorem lexemes_of_splits {cs : List Char} {ts : List Lexeme} (h : Splits cs ts) :
    lexemes cs = ts.flatMap pieces := by
  induction h with
  | done hg => exact lexemes_of_nil (List.dropWhile_eq_nil_iff.2 hg)
  | next hg ht hl _ ih => rw [lexemes_gap hg, lexemes_terminal ht hl, ih, List.flatMap_cons]

end LineLang.Strict
