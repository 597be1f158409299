import Mathlib
import LineLang.Proofs.TolerantParser

/-!
# Counting over lexemes

A list of lexemes is measured place by place: how much of it a tree can keep, and whether its parentheses are paired.

* `Kind.isKept` : the kinds of the lexemes that trees keep as tokens;
* `total f ts k` : the sum of `f` over the first `k` places of `ts`;
* `contents` : how many lexemes are kept;
* `isHole` : three kinds in a row behind the first of which an operand or a condition is missing;
* `balance` : the closing parentheses less the opening ones and the holes;
* `Opens`, `Knit` : what stands behind an opening parenthesis of a rendered tree;
* `balance_line` : what is passed of a line without keeping anything does not lower the balance.
-/

namespace LineLang

open Grammar

def Kind.isOperator (k : Kind) : Bool := k.strength?.isSome

def Kind.isKept (k : Kind) : Bool :=
  k.isOperator || [Kind.ident, .num, .printWord, .ifWord, .whileWord, .lbrace].contains k

theorem Kind.isOperator_iff (k : Kind) : k.isOperator = (Strict.tier? k).isSome := by
  rw [isOperator, strength?_eq, Option.isSome_map]

theorem Kind.isKept_of_isOperator {k : Kind} (h : k.isOperator = true) : k.isKept = true := by
  rw [isKept, h, Bool.true_or]

namespace Tolerant

/-! ## Sums over places -/

/-- The sum of `f` over the first `k` places of a list. The value of `f` at a place may depend on all that follows. -/
def total {M : Type} [AddCommMonoid M] (f : List Lexeme → M) : List Lexeme → Nat → M
  | _, 0 => 0
  | ts, k + 1 => f ts + total f ts.tail k

section Total

variable {M : Type} [AddCommMonoid M] (f : List Lexeme → M)

theorem total_add (ts : List Lexeme) (k j : Nat) : total f ts (k + j) = total f ts k + total f (ts.drop k) j := by
  induction k generalizing ts with
  | zero => simp [total]
  | succ k ih => rw [Nat.succ_add, total, total, ih, List.drop_tail, add_assoc]

theorem total_one (ts : List Lexeme) : total f ts 1 = f ts := add_zero _

theorem total_append (u v : List Lexeme) (j : Nat) :
    total f (u ++ v) (u.length + j) = total f (u ++ v) u.length + total f v j := by
  rw [total_add, List.drop_left]

theorem total_nil (hf : f [] = 0) (k : Nat) : total f [] k = 0 := by
  induction k with
  | zero => rfl
  | succ k ih => rw [total, hf, List.tail_nil, ih, add_zero]

theorem total_of_length_le (hf : f [] = 0) {ts : List Lexeme} {n : Nat} (h : ts.length ≤ n) :
    total f ts n = total f ts ts.length := by
  obtain ⟨j, rfl⟩ := Nat.exists_eq_add_of_le h
  rw [total_add, List.drop_length, total_nil f hf, add_zero]

end Total

/-- One if the lexeme at the front is kept in trees. -/
def content (ts : List Lexeme) : Nat := if (cur ts).kind.isKept then 1 else 0

abbrev contents : List Lexeme → Nat → Nat := total content

/-- An opening parenthesis counts against a closing one. -/
def turn : Kind → Int
  | .lparen => -1
  | .rparen => 1
  | _ => 0

/-- Whether of three kinds in a row the first one is followed by a hole: an operator without its right operand, a
parenthesis without the left operand, or a keyword without its condition. -/
def isHole (a b c : Kind) : Bool :=
  (a.isOperator && b == .rparen) || (a == .lparen && b.isOperator) ||
    ((a == .ifWord || a == .whileWord) && b == .lparen && c == .rparen)

/-- What the place at the front adds to the balance. -/
def worth (ts : List Lexeme) : Int :=
  turn (cur ts).kind - if isHole (cur ts).kind (peek ts).kind (peek ts.tail).kind then 1 else 0

abbrev balance : List Lexeme → Nat → Int := total worth

theorem contents_add (ts : List Lexeme) (k j : Nat) : contents ts (k + j) = contents ts k + contents (ts.drop k) j :=
  total_add content ts k j

theorem contents_succ (ts : List Lexeme) (k : Nat) : contents ts (k + 1) = content ts + contents ts.tail k := rfl

theorem balance_add (ts : List Lexeme) (k j : Nat) : balance ts (k + j) = balance ts k + balance (ts.drop k) j :=
  total_add worth ts k j

theorem balance_succ (ts : List Lexeme) (k : Nat) : balance ts (k + 1) = worth ts + balance ts.tail k := rfl

theorem contents_one (ts : List Lexeme) : contents ts 1 = content ts := rfl

theorem balance_one (ts : List Lexeme) : balance ts 1 = worth ts := total_one worth ts

theorem contents_mono (ts : List Lexeme) {k j : Nat} (h : k ≤ j) : contents ts k ≤ contents ts j := by
  obtain ⟨i, rfl⟩ := Nat.exists_eq_add_of_le h
  rw [contents_add]
  exact Nat.le_add_right _ _

theorem content_eq_zero {ts : List Lexeme} : content ts = 0 ↔ (cur ts).kind.isKept = false := by
  simp [content]

theorem content_kept {u : List Lexeme} {k : Kind} (hk : (cur u).kind = k) (h : k.isKept = true) : content u = 1 := by
  rw [content, hk, if_pos h]

theorem content_dropped {u : List Lexeme} {k : Kind} (hk : (cur u).kind = k) (h : k.isKept = false) :
    content u = 0 := by
  rw [content_eq_zero, hk, h]

/-! ## The worth of a place -/

theorem isHole_lparen (b c : Kind) : isHole .lparen b c = b.isOperator := Bool.or_false _

theorem isHole_operator {a : Kind} (h : a.isOperator = true) (b c : Kind) : isHole a b c = (b == .rparen) := by
  cases a <;> first | exact absurd h (by decide) | exact (Bool.or_false _).trans (Bool.or_false _)

theorem isHole_keyword {a : Kind} (h : a = .ifWord ∨ a = .whileWord) (b c : Kind) :
    isHole a b c = (b == .lparen && c == .rparen) := by
  rcases h with rfl | rfl <;> rfl

theorem isHole_eq_false {a : Kind} (h : a.isOperator = false) (ha : a ∉ [Kind.lparen, .ifWord, .whileWord])
    (b c : Kind) : isHole a b c = false := by
  cases a <;> first | exact absurd h (by decide) | exact absurd (by decide) ha | rfl

theorem worth_eq_turn {u : List Lexeme} (h : isHole (cur u).kind (peek u).kind (peek u.tail).kind = false) :
    worth u = turn (cur u).kind := by
  rw [worth, h, if_neg Bool.false_ne_true, sub_zero]

theorem worth_hole {u : List Lexeme} (h : isHole (cur u).kind (peek u).kind (peek u.tail).kind = true) :
    worth u = turn (cur u).kind - 1 := by
  rw [worth, if_pos h]

/-- What stands at a place is worth no more than its parenthesis. -/
theorem worth_le (u : List Lexeme) : worth u ≤ turn (cur u).kind := by
  rw [worth]
  split <;> omega

theorem turn_operator {a : Kind} (h : a.isOperator = true) : turn a = 0 := by
  cases a <;> first | exact absurd h (by decide) | rfl

/-- A lexeme behind which no hole can be. -/
theorem worth_of_kind {u : List Lexeme} {k : Kind} (hk : (cur u).kind = k) (h : k.isOperator = false)
    (ha : k ∉ [Kind.lparen, .ifWord, .whileWord]) : worth u = turn k := by
  subst hk
  exact worth_eq_turn (isHole_eq_false h ha _ _)

/-- A lexeme that is not kept, apart from an opening parenthesis. -/
theorem worth_of_not_isKept {u : List Lexeme} (h : (cur u).kind.isKept = false) (ha : (cur u).kind ≠ .lparen) :
    worth u = turn (cur u).kind ∧ 0 ≤ turn (cur u).kind := by
  rw [worth_eq_turn]
  all_goals
    generalize (cur u).kind = k at h ha
    cases k <;> first | exact absurd h (by decide) | exact absurd rfl ha | rfl | decide

theorem worth_rparen {u : List Lexeme} (h : (cur u).kind = .rparen) : worth u = 1 :=
  worth_of_kind h (by decide) (by decide)

theorem worth_lparen {u : List Lexeme} (h : (cur u).kind = .lparen) (hp : (peek u).kind.isOperator = false) :
    worth u = -1 := by
  rw [worth_eq_turn (by rw [h, isHole_lparen, hp]), h]
  rfl

theorem worth_operator {u : List Lexeme} (h : (cur u).kind.isOperator = true) :
    worth u = if (peek u).kind = .rparen then -1 else 0 := by
  rw [worth, turn_operator h, isHole_operator h]
  by_cases hp : (peek u).kind = .rparen <;> simp [hp]

theorem worth_keyword {u : List Lexeme} (h : (cur u).kind = .ifWord ∨ (cur u).kind = .whileWord)
    (hp : (peek u.tail).kind ≠ .rparen) : worth u = 0 := by
  have hturn : turn (cur u).kind = 0 := by rcases h with h | h <;> rw [h] <;> rfl
  rw [worth_eq_turn (by simp [isHole_keyword h, hp]), hturn]

/-! ## What stands behind an opening parenthesis -/

/-- What stands behind an opening parenthesis in a rendered tree: an expression, which is not empty parentheses; the
operator of an operation without a left operand; or the end of a condition that is missing. -/
def Opens (ts : List Lexeme) : Prop :=
  (cur ts).kind ∈ expressionStarts ∧ ¬ ((cur ts).kind = .lparen ∧ (peek ts).kind = .rparen) ∨
    (cur ts).kind.isOperator = true ∨ (cur ts).kind = .rparen ∧ (peek ts).kind = .lbrace

def Knit : List Lexeme → Prop
  | [] => True
  | t :: ts => (t.kind = .lparen → Opens ts) ∧ Knit ts

theorem Knit.tail {ts : List Lexeme} (h : Knit ts) : Knit ts.tail := by
  cases ts with
  | nil => exact h
  | cons t ts => exact h.2

theorem Knit.drop {ts : List Lexeme} (h : Knit ts) (k : Nat) : Knit (ts.drop k) := by
  induction k generalizing ts with
  | zero => exact h
  | succ k ih =>
    rw [← List.drop_tail]
    exact ih h.tail

/-- The opening parentheses at the front. -/
def opening (ts : List Lexeme) : Nat := (ts.takeWhile fun t => t.kind == .lparen).length

/-- If nothing is kept of an expression as far as its first operand, there is none: a condition is missing. -/
theorem Opens.closed {ts : List Lexeme} (ho : Opens ts) (hk : Knit ts) (h : contents ts (opening ts + 1) = 0) :
    (cur ts).kind = .rparen := by
  induction ts with
  | nil => rcases ho with ⟨ho, -⟩ | ho | ⟨ho, -⟩ <;> exact absurd ho (by decide)
  | cons t ts ih =>
    rw [contents_succ, Nat.add_eq_zero_iff, content_eq_zero] at h
    obtain ⟨hkept, hrest⟩ := h
    have hkind : ∀ k : Kind, k.isKept = true → t.kind ≠ k := by
      rintro k hk rfl
      exact absurd hk (by simpa [cur] using hkept)
    rcases ho with ⟨hstart, hne⟩ | hop | ⟨hclose, -⟩
    · have ht : t.kind = .lparen := by
        simp only [expressionStarts, List.mem_cons, List.not_mem_nil, or_false] at hstart
        rcases hstart with hs | hs | hs | hs | hs
        · exact absurd hs (hkind _ (by decide))
        · exact absurd hs (hkind _ (by decide))
        · exact hs
        · exact absurd hs (hkind _ (by decide))
        · exact absurd hs (hkind _ (by decide))
      have hlen : opening (t :: ts) = opening ts + 1 := by simp [opening, ht]
      rw [hlen] at hrest
      exact absurd ⟨ht, ih (hk.1 ht) hk.2 hrest⟩ hne
    · exact absurd rfl (hkind t.kind (Kind.isKept_of_isOperator hop))
    · exact hclose

theorem opening_le_untilNewline (ts : List Lexeme) : opening ts ≤ untilNewline ts := by
  induction ts with
  | nil => exact Nat.le_refl _
  | cons t ts ih =>
    by_cases ht : t.kind = .lparen
    · simpa [opening, untilNewline, ht] using ih
    · simp [opening, ht]

/-- What is passed of a line without keeping anything has no more opening than closing parentheses. -/
theorem balance_line {ts : List Lexeme} (hk : Knit ts) (h : contents ts (untilNewline ts + 1) = 0) :
    max 0 (turn (cur ts).kind) ≤ balance ts (untilNewline ts + 1) := by
  induction ts with
  | nil => decide
  | cons t ts ih =>
    rw [contents_succ, Nat.add_eq_zero_iff, content_eq_zero] at h
    obtain ⟨hkept, hrest⟩ := h
    change max 0 (turn t.kind) ≤ worth (t :: ts) + balance ts (untilNewline (t :: ts))
    change contents ts (untilNewline (t :: ts)) = 0 at hrest
    by_cases ht : t.kind = .newline
    · have hlen : untilNewline (t :: ts) = 0 := by simp [untilNewline, ht]
      rw [hlen, worth_of_kind (u := t :: ts) ht (by decide) (by decide), ht]
      exact (by decide : max (0 : Int) 0 ≤ 0 + 0)
    have hlen : untilNewline (t :: ts) = untilNewline ts + 1 := by simp [untilNewline, ht]
    rw [hlen] at hrest ⊢
    have hline := ih hk.2 hrest
    by_cases hopen : t.kind = .lparen
    · -- only a condition that is missing, so the parenthesis is closed at once
      have hfew := contents_mono ts (Nat.add_le_add_right (opening_le_untilNewline ts) 1)
      have hclose : (cur ts).kind = .rparen := (hk.1 hopen).closed hk.2 (by omega)
      rw [hclose] at hline
      have hworth : worth (t :: ts) = -1 := worth_lparen hopen (by rw [peek, List.tail_cons, ← cur, hclose]; rfl)
      rw [hworth, hopen]
      simp only [turn] at hline ⊢
      omega
    · obtain ⟨hworth, hturn⟩ := worth_of_not_isKept (u := t :: ts) hkept hopen
      change worth (t :: ts) = turn t.kind at hworth
      change 0 ≤ turn t.kind at hturn
      omega

end Tolerant

end LineLang
