import Mathlib
import LineLang.Proofs.ReadingOrder
import LineLang.Proofs.RoundTrip

/-!
# Operands and operators in a row

Where operands and binary operators take turns, the strengths of the operators alone say how the tolerant parser nests
them and where it stops.

* `Kind.ladder` : the operators, the weakest first;
* `Node.Nested` : the trees whose operators stand in the right order: on the left of an operator none that is weaker, on
  the right only stronger ones;
* `row pairs` : operators, each with the operand behind it;
* `behind_row` : behind a nested operand the parser takes the operators that are stronger than its bound, up to the
  first that is not, and the tree stays nested;
* `Nested.eq_of_tokens` : a nested tree is determined by its tokens in reading order;
* `expression_row` : so the parser returns the only nested tree of what it has passed.
-/

namespace LineLang

/-- The binary operators, from the weakest to the strongest. -/
def Kind.ladder : List (List Kind) :=
  [[.both], [.either], [.equal, .notEqual], [.less, .greater, .atMost, .atLeast], [.plus, .minus],
    [.star, .slash, .percent]]

theorem Kind.strength?_eq_ladder (k : Kind) :
    k.strength? = (ladder.findIdx? fun rung => k ∈ rung).map fun i => (i : Int) + 2 := by
  cases k <;> rfl

theorem Kind.strength_of_some {k : Kind} {q : Int} (h : k.strength? = some q) : k.strength = q := by
  rw [strength, h, Option.getD_some]

theorem Lexeme.token_injective : Function.Injective Lexeme.token := by
  rintro ⟨k, s⟩ ⟨k', s'⟩ h
  cases h
  rfl

namespace Node

open Tolerant

/-- The strength of the operator at the top of a tree. -/
def outer? : Node → Option Int
  | .binary token .. => token.kind.strength?
  | _ => none

/-- The trees of names, numbers and binary operators in which each operator stands above operators that bind more
tightly, or on its left, as tightly. -/
inductive Nested : Node → Prop
  | name {x : Lexeme} : x.kind = .ident → Nested (.ofName x)
  | number {x : Lexeme} : x.kind = .num → Nested (integer x)
  | binary {op : Lexeme} {q : Int} {l r : Node} : op.kind.strength? = some q → Nested l → Nested r →
      (∀ s ∈ l.outer?, q ≤ s) → (∀ s ∈ r.outer?, q < s) →
      Nested (.binary op.token l (.str op.text) r)

end Node

open Node

namespace Tolerant

/-! ## What is read -/

/-- The tree of an operand. -/
def leaf (x : Lexeme) : Node := if x.kind = .num then integer x else .ofName x

/-- Names and numbers. -/
def IsOperand (x : Lexeme) : Prop := x.kind = .ident ∨ x.kind = .num

def row (pairs : List (Lexeme × Lexeme)) : List Lexeme := pairs.flatMap fun x => [x.1, x.2]

/-- Each pair is an operator and an operand. -/
def IsRow (pairs : List (Lexeme × Lexeme)) : Prop := ∀ x ∈ pairs, x.1.kind.strength?.isSome ∧ IsOperand x.2

instance (x : Lexeme) : Decidable (IsOperand x) := inferInstanceAs (Decidable (_ ∨ _))

instance (pairs : List (Lexeme × Lexeme)) : Decidable (IsRow pairs) :=
  inferInstanceAs (Decidable (∀ x ∈ pairs, _ ∧ IsOperand x.2))

/-- The operator of a pair is stronger than `p`. -/
def stronger (p : Int) (x : Lexeme × Lexeme) : Bool := decide (p < x.1.kind.strength)

theorem nested_leaf {x : Lexeme} (h : IsOperand x) : (leaf x).Nested := by
  rcases h with h | h
  · rw [leaf, if_neg (by simp [h])]
    exact .name h
  · rw [leaf, if_pos h]
    exact .number h

theorem outer?_leaf (x : Lexeme) : (leaf x).outer? = none := by
  unfold leaf
  split <;> rfl

theorem tokens_leaf (x : Lexeme) : (leaf x).tokens = [x.token] := by
  unfold leaf
  split <;> rfl

theorem expression_leaf {x : Lexeme} (h : IsOperand x) (p : Int) (rest : List Lexeme) :
    expression p (x :: rest) = behind p (leaf x) rest := by
  have hoperand : operand x rest = some (leaf x, 0) := by
    rcases h with h | h
    · simp [operand, leaf, h]
    · simp [operand, leaf, h]
  rw [expression_of_operand hoperand, List.drop_zero, operators_cons, Nat.zero_add]

theorem row_append (xs ys : List (Lexeme × Lexeme)) : row (xs ++ ys) = row xs ++ row ys := List.flatMap_append

theorem row_dropWhile (f : Lexeme × Lexeme → Bool) (pairs : List (Lexeme × Lexeme)) (rest : List Lexeme) :
    row pairs ++ rest = row (pairs.takeWhile f) ++ (row (pairs.dropWhile f) ++ rest) := by
  rw [← List.append_assoc, ← row_append, List.takeWhile_append_dropWhile]

theorem length_row (xs : List (Lexeme × Lexeme)) : (row xs).length = 2 * xs.length := by
  induction xs with
  | nil => rfl
  | cons x xs ih =>
    rw [row, List.flatMap_cons, List.length_append, ← row, ih, List.length_cons, List.length_cons, List.length_cons,
      List.length_nil]
    omega

/-- From an operand on, past `pairs` stands the last operand that was read. -/
theorem drop_row (a : Lexeme) (pairs : List (Lexeme × Lexeme)) (rest : List Lexeme) :
    ∃ before last, a :: row pairs = before ++ [last] ∧
      (a :: (row pairs ++ rest)).drop (2 * pairs.length) = last :: rest := by
  obtain ⟨before, last, h⟩ := (List.eq_nil_or_concat (a :: row pairs)).resolve_left (List.cons_ne_nil _ _)
  rw [List.concat_eq_append] at h
  have hlength : before.length = 2 * pairs.length := by
    have := congrArg List.length h
    rw [List.length_cons, length_row, List.length_append, List.length_singleton] at this
    omega
  refine ⟨before, last, h, ?_⟩
  rw [← List.cons_append, h, List.append_assoc, List.singleton_append, ← hlength, List.drop_left]

theorem takeWhile_stronger {p q : Int} (h : p ≤ q) (pairs : List (Lexeme × Lexeme)) :
    pairs.takeWhile (stronger p) =
      pairs.takeWhile (stronger q) ++ (pairs.dropWhile (stronger q)).takeWhile (stronger p) := by
  have hall : ∀ x ∈ pairs.takeWhile (stronger q), stronger p x = true := by
    intro x hx
    have hq : stronger q x = true := List.mem_takeWhile_imp hx
    exact decide_eq_true (Int.lt_of_le_of_lt h (of_decide_eq_true hq))
  conv_lhs => rw [← List.takeWhile_append_dropWhile (p := stronger q) (l := pairs)]
  exact List.takeWhile_append_of_pos hall

/-! ## How far the parser reads -/

/-- The tree `e` is nested and reads as `left` with `pairs` behind it. Its outer operator is stronger than `p` unless
that of `left` is not. -/
structure Climbs (p : Int) (left : Node) (pairs : List (Lexeme × Lexeme)) (e : Node) : Prop where
  nested : e.Nested
  tokens : e.tokens = left.tokens ++ (row pairs).map Lexeme.token
  outer : (∀ s ∈ left.outer?, p < s) → ∀ s ∈ e.outer?, p < s

theorem Climbs.refl {left : Node} (h : left.Nested) (p : Int) : Climbs p left [] left :=
  ⟨h, (List.append_nil _).symm, id⟩

/-- The right operand of an operator, then the operators behind it. -/
theorem Climbs.step {p q : Int} {op a : Lexeme} {left r e : Node} {pairs others : List (Lexeme × Lexeme)}
    (hop : op.kind.strength? = some q) (hp : p < q) (hr : Climbs q (leaf a) pairs r)
    (he : Climbs p (.binary op.token left (.str op.text) r) others e) :
    Climbs p left ((op, a) :: (pairs ++ others)) e := by
  refine ⟨he.nested, ?_, fun _ => he.outer fun s hs => ?_⟩
  · rw [he.tokens, Node.tokens, hr.tokens, tokens_leaf]
    simp [row]
  · have : q = s := Option.some.inj (hop.symm.trans hs)
    omega

theorem behind_pair {p q : Int} {op a : Lexeme} {r : Node} {pairs : List (Lexeme × Lexeme)} {rest : List Lexeme}
    (hop : op.kind.strength? = some q) (hp : p < q) (left : Node)
    (hr : expression q (a :: (row pairs ++ rest)) = (r, 2 * pairs.length)) :
    behind p left (op :: a :: (row pairs ++ rest)) =
      ((behind p (.binary op.token left (.str op.text) r) rest).1,
        2 + 2 * pairs.length + (behind p (.binary op.token left (.str op.text) r) rest).2) := by
  obtain ⟨-, last, -, hdrop⟩ := drop_row a pairs rest
  rw [behind_operator hop hp, hr]
  simp only [hdrop, operators_cons]

/-- Behind a nested operand that may stand on the left of the next operator, the parser takes the pairs up to the first
operator that is not stronger than `p`. -/
theorem behind_row {rest : List Lexeme} (hrest : (cur rest).kind.strength? = none) :
    ∀ (pairs : List (Lexeme × Lexeme)) (p : Int) (left : Node), IsRow pairs → left.Nested →
      (∀ x ∈ pairs.head?, ∀ s ∈ left.outer?, stronger p x → x.1.kind.strength ≤ s) →
      ∃ e, behind p left (row pairs ++ rest) = (e, 2 * (pairs.takeWhile (stronger p)).length) ∧
        Climbs p left (pairs.takeWhile (stronger p)) e
  | [], p, left, _, hleft, _ => by
    refine ⟨left, behind_of_le left ?_, .refl hleft p⟩
    intro s hs
    cases hrest.symm.trans hs
  | (op, a) :: pairs, p, left, hrow, hleft, houter => by
    obtain ⟨hop, ha⟩ := hrow (op, a) List.mem_cons_self
    obtain ⟨q, hq⟩ := Option.isSome_iff_exists.1 hop
    have hstrength : op.kind.strength = q := Kind.strength_of_some hq
    by_cases hp : p < q
    · have hstronger : stronger p (op, a) = true := decide_eq_true (hstrength ▸ hp)
      have hpairs : IsRow pairs := fun x hx => hrow x (List.mem_cons_of_mem _ hx)
      -- the right operand takes what is stronger than this operator
      obtain ⟨r, hr, hright⟩ := behind_row hrest pairs q (leaf a) hpairs (nested_leaf ha) (by simp [outer?_leaf])
      have hnested : (Node.binary op.token left (.str op.text) r).Nested := by
        refine .binary hq hleft hright.nested (fun s hs => ?_) (hright.outer (by simp [outer?_leaf]))
        exact hstrength ▸ houter (op, a) rfl s hs hstronger
      -- what is left begins with no stronger operator, so the whole is a left operand for it
      have hothers : ∀ x ∈ (pairs.dropWhile (stronger q)).head?, x.1.kind.strength ≤ q := by
        intro x hx
        have hnot := List.head?_dropWhile_not (stronger q) pairs
        rw [hx] at hnot
        exact Int.not_lt.1 (of_decide_eq_false hnot)
      obtain ⟨e, he, hleft⟩ := behind_row hrest (pairs.dropWhile (stronger q)) p _
        (fun x hx => hpairs x ((List.dropWhile_suffix _).subset hx)) hnested
        (fun x hx s hs _ => Option.some.inj (hq.symm.trans hs) ▸ hothers x hx)
      rw [List.takeWhile_cons_of_pos hstronger, takeWhile_stronger (Int.le_of_lt hp)]
      refine ⟨e, ?_, .step hq hp hright hleft⟩
      rw [row_dropWhile (stronger q), ← expression_leaf ha] at hr
      calc behind p left (op :: a :: (row pairs ++ rest))
          = (e, 2 + 2 * (pairs.takeWhile (stronger q)).length +
              2 * ((pairs.dropWhile (stronger q)).takeWhile (stronger p)).length) := by
            rw [row_dropWhile (stronger q), behind_pair hq hp left hr, he]
        _ = _ := by
            rw [List.length_cons, List.length_append]
            congr 1
            omega
    · rw [List.takeWhile_cons_of_neg (by simp [stronger, hstrength, hp])]
      refine ⟨left, behind_of_le left ?_, .refl hleft p⟩
      intro s hs
      have : q = s := Option.some.inj (hq.symm.trans hs)
      omega
termination_by pairs => pairs.length
decreasing_by
  · simp
  · exact Nat.lt_succ_of_le (List.dropWhile_suffix _).length_le

end Tolerant

open Tolerant

/-! ## The only tree -/

namespace Node.Nested

variable {e e' : Node}

/-- A nested tree is what the parser reads from its lexemes in reading order. -/
theorem reads (h : e.Nested) :
    ∃ u, e.tokens = u.map Lexeme.token ∧ ∀ q, (∀ s ∈ e.outer?, q ≤ s) → Reads q u e := by
  induction h with
  | @name x hx => exact ⟨[x], rfl, fun q _ => .name hx⟩
  | @number x hx => exact ⟨[x], rfl, fun q _ => .number hx⟩
  | @binary op q l r hop _ _ hleft hright ihl ihr =>
    obtain ⟨u, hu, hl⟩ := ihl
    obtain ⟨v, hv, hr⟩ := ihr
    refine ⟨u ++ op :: v, by simp [tokens, hu, hv], fun p hp => ?_⟩
    have hr : Reads (q + 1) v r := hr _ hright
    exact (Reads.binary hop (hl q hleft) (Int.le_refl q) hr (Int.lt_succ q)).mono (hp q hop)

theorem lowest_lt_outer (h : e.Nested) {s : Int} (hs : e.outer? = some s) : Kind.lowest < s := by
  cases h with
  | name | number => cases hs
  | binary => exact lowest_lt hs

theorem eq_of_tokens (h : e.Nested) (h' : e'.Nested) (ht : e.tokens = e'.tokens) : e = e' := by
  obtain ⟨u, hu, hr⟩ := h.reads
  obtain ⟨u', hu', hr'⟩ := h'.reads
  obtain rfl : u = u' := Lexeme.token_injective.list_map (hu.symm.trans (ht.trans hu'))
  have hread {n : Node} (hn : Reads (Kind.lowest + 1) u n) : expression Kind.lowest (u ++ []) = (n, u.length - 1) :=
    hn.expression_eq (Int.lt_succ _) (by simp [cur, Lexeme.eof]) (by simp [cur, Lexeme.eof, Kind.strength?])
  have he := hread (hr _ fun s hs => h.lowest_lt_outer hs)
  have he' := hread (hr' _ fun s hs => h'.lowest_lt_outer hs)
  exact (Prod.mk.inj (he.symm.trans he')).1

end Node.Nested

/-- Of an operand with operators and operands behind it, up to a lexeme that is no operator, the parser passes what
comes before the first operator that is not stronger than `p`. It returns the one nested tree of that part. -/
theorem expression_row (p : Int) {a : Lexeme} {pairs : List (Lexeme × Lexeme)} {rest : List Lexeme}
    (ha : IsOperand a) (hpairs : IsRow pairs) (hrest : (cur rest).kind.strength? = none) :
    (∀ k : Kind, k.strength? = (Kind.ladder.findIdx? fun rung => k ∈ rung).map fun i => (i : Int) + 2) ∧
    ∃ e before last, a :: row (pairs.takeWhile (stronger p)) = before ++ [last] ∧
      Parser.expression p (a :: (row pairs ++ rest)) =
        (e, last :: (row (pairs.dropWhile (stronger p)) ++ rest)) ∧
      (e.Nested ∧ e.tokens = (a :: row (pairs.takeWhile (stronger p))).map Lexeme.token) ∧
      ∀ e' : Node, e'.Nested → e'.tokens = (a :: row (pairs.takeWhile (stronger p))).map Lexeme.token → e' = e := by
  refine ⟨Kind.strength?_eq_ladder, ?_⟩
  obtain ⟨e, he, hclimbs⟩ := behind_row hrest pairs p (leaf a) hpairs (nested_leaf ha) (by simp [outer?_leaf])
  have htokens : e.tokens = (a :: row (pairs.takeWhile (stronger p))).map Lexeme.token := by
    rw [hclimbs.tokens, tokens_leaf]
    rfl
  obtain ⟨before, last, hlast, hdrop⟩ := drop_row a (pairs.takeWhile (stronger p))
    (row (pairs.dropWhile (stronger p)) ++ rest)
  refine ⟨e, before, last, hlast, ?_, ⟨hclimbs.nested, htokens⟩, fun e' hnested ht => ?_⟩
  · show (_, _) = _
    rw [expression_leaf ha, he, row_dropWhile (stronger p), hdrop]
  · exact hnested.eq_of_tokens hclimbs.nested (ht.trans htokens.symm)

/-- In front of `else`, with the strength of `&&` as the bound, `a - b * 2 - c` is passed of
`a - b * 2 - c && d || e`. -/
theorem expression_row_differences :
    let name (s : String) : Lexeme := ⟨.ident, s⟩
    let two : Lexeme := ⟨.num, "2"⟩
    let minus : Lexeme := ⟨.minus, "-"⟩
    let times : Lexeme := ⟨.star, "*"⟩
    let both : Lexeme := ⟨.both, "&&"⟩
    let either : Lexeme := ⟨.either, "||"⟩
    let otherwise : Lexeme := ⟨.elseWord, "else"⟩
    let pairs := [(minus, name "b"), (times, two), (minus, name "c"), (both, name "d"), (either, name "e")]
    let product : Node := .binary times.token (.ofName (name "b")) (.str "*") (integer two)
    let difference : Node := .binary minus.token (.ofName (name "a")) (.str "-") product
    IsOperand (name "a") ∧ IsRow pairs ∧ (cur [otherwise]).kind.strength? = none ∧
    Parser.expression 2 (name "a" :: (row pairs ++ [otherwise])) =
      (.binary minus.token difference (.str "-") (.ofName (name "c")),
        [name "c", both, name "d", either, name "e", otherwise]) := by
  intro name two minus times both either otherwise pairs product difference
  have ha : IsOperand (name "a") := by decide
  have hpairs : IsRow pairs := by decide
  have hrest : (cur [otherwise]).kind.strength? = none := by decide
  have htaken : pairs.takeWhile (stronger 2) = [(minus, name "b"), (times, two), (minus, name "c")] := by decide
  have hleft : pairs.dropWhile (stronger 2) = [(both, name "d"), (either, name "e")] := by decide
  obtain ⟨-, e, before, last, hlast, he, -, hunique⟩ := expression_row 2 ha hpairs hrest
  rw [htaken] at hlast hunique
  rw [hleft] at he
  have hproduct : product.Nested := .binary rfl (.name rfl) (.number rfl) (by decide) (by decide)
  have hdifference : difference.Nested := .binary rfl (.name rfl) hproduct (by decide) (by decide)
  have htree := hunique (.binary minus.token difference (.str "-") (.ofName (name "c")))
    (.binary rfl hdifference (.name rfl) (by decide) (by decide)) rfl
  have hc := congrArg List.getLast? hlast
  rw [List.getLast?_concat] at hc
  obtain rfl : name "c" = last := Option.some.inj hc
  rw [htree]
  exact ⟨ha, hpairs, hrest, he⟩

end LineLang
