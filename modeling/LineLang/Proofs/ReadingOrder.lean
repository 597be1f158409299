import Mathlib
import LineLang.Tree.Tolerant

/-!
# Trees in reading order

The tolerant parser leaves out what it cannot read, but it invents no token, repeats none and moves none.

* `Node.tokens` : the tokens of a tree in the order in which they are read;
* `taken ts k` : the tokens of the first `k` lexemes of `ts`;
* `tokens_expression`, `tokens_statement`, ... : what a function of the parser returns is made of the lexemes that it
  has passed, one lemma for each function;
* `tokens_parse` : so the tokens of the tree of a text are some of those of the text, in their order.
-/

namespace LineLang

namespace Node

mutual

/-- The tokens of a tree in reading order. Of an assignment and of an expression as a statement, the token is that of
the first part. -/
def tokens : Node → List Token
  | .missing => []
  | .root statements => tokensList statements
  | .assign _ name value => tokens name ++ tokens value
  | .print token value => token :: tokens value
  | .expr _ expression => tokens expression
  | .block token statements => token :: tokensList statements
  | .cond token condition yes no => token :: (tokens condition ++ (tokens yes ++ tokens no))
  | .loop token condition body => token :: (tokens condition ++ tokens body)
  | .ident token _ => [token]
  | .int token _ => [token]
  | .binary token left _ right => tokens left ++ token :: tokens right
  | .unary token _ right => token :: tokens right

def tokensList : List Node → List Token
  | [] => []
  | s :: ss => tokens s ++ tokensList ss

end

end Node

open Node

namespace Tolerant

/-! ## Lexemes that are passed -/

def taken (ts : List Lexeme) (k : Nat) : List Token := (ts.take k).map Lexeme.token

theorem taken_add (ts : List Lexeme) (k j : Nat) : taken ts (k + j) = taken ts k ++ taken (ts.drop k) j := by
  unfold taken
  rw [List.take_add, List.map_append]

theorem taken_cons (t : Lexeme) (ts : List Lexeme) (k : Nat) : taken (t :: ts) (k + 1) = t.token :: taken ts k := rfl

theorem nil_sublist_taken (ts : List Lexeme) (k : Nat) : Node.missing.tokens.Sublist (taken ts k) := List.nil_sublist _

section Sublists

variable {ts : List Lexeme} {xs ys : List Token} {k j : Nat}

theorem sublist_taken_of_le (h : xs.Sublist (taken ts k)) (hk : k ≤ j) : xs.Sublist (taken ts j) := by
  obtain ⟨i, rfl⟩ := Nat.exists_eq_add_of_le hk
  rw [taken_add]
  exact h.trans (List.sublist_append_left _ _)

theorem sublist_taken_append (hx : xs.Sublist (taken ts k)) (hy : ys.Sublist (taken (ts.drop k) j)) :
    (xs ++ ys).Sublist (taken ts (k + j)) := by
  rw [taken_add]
  exact hx.append hy

theorem sublist_taken_tail (h : xs.Sublist (taken (ts.drop 1) k)) : xs.Sublist (taken ts (1 + k)) :=
  sublist_taken_append (List.nil_sublist (taken ts 1)) h

end Sublists

/-! ## Functions of the parser -/

mutual

theorem tokens_expression (p : Int) (ts : List Lexeme) :
    (expression p ts).1.tokens.Sublist (taken ts ((expression p ts).2 + 1)) := by
  match ts with
  | [] =>
    rw [expression]
    exact nil_sublist_taken _ _
  | t :: rest =>
    rw [expression]
    split
    · exact nil_sublist_taken _ _
    · next left k ho =>
      have hops := tokens_operators p left ((t :: rest).drop k)
      rw [List.drop_drop] at hops
      have hboth := hops.trans ((tokens_operand t rest ho).append (.refl _))
      rw [← taken_add] at hboth
      exact sublist_taken_of_le hboth (by dsimp only; omega)
termination_by 5 * ts.length + 1

theorem tokens_operand (t : Lexeme) (rest : List Lexeme) {e : Node} {k : Nat} (ho : operand t rest = some (e, k)) :
    e.tokens.Sublist (taken (t :: rest) (k + 1)) := by
  rw [operand] at ho
  split at ho
  · obtain ⟨rfl, rfl⟩ := Prod.mk.inj (Option.some.inj ho)
    exact .refl _
  · obtain ⟨rfl, rfl⟩ := Prod.mk.inj (Option.some.inj ho)
    exact .refl _
  · have hg := tokens_group rest
    rw [Option.some.inj ho] at hg
    exact hg.cons _
  · have hc := tokens_choice t rest
    rwa [Option.some.inj ho] at hc
  · have hl := tokens_loop t rest
    rwa [Option.some.inj ho] at hl
  · cases ho
termination_by 5 * rest.length + 4

/-- The operators and their right operands stand behind the left operand, whose last lexeme is at the front. -/
theorem tokens_operators (p : Int) (left : Node) (ts : List Lexeme) :
    (operators p left ts).1.tokens.Sublist (left.tokens ++ taken (ts.drop 1) (operators p left ts).2) := by
  unfold operators
  split
  · next a op rest =>
    split
    · next q hq =>
      split
      · have hright := tokens_expression q rest
        have hops := tokens_operators p (.binary op.token left (.str op.text) (expression q rest).1)
          (rest.drop (expression q rest).2)
        generalize expression q rest = r at hright hops
        obtain ⟨right, k⟩ := r
        dsimp only at hright hops ⊢
        generalize operators p (.binary op.token left (.str op.text) right) (rest.drop k) = r at hops
        obtain ⟨e, j⟩ := r
        rw [List.drop_drop] at hops
        have hrest : (right.tokens ++ taken (rest.drop (k + 1)) j).Sublist (taken rest (k + 1 + j)) :=
          sublist_taken_append hright (.refl _)
        have hall : ((left.tokens ++ op.token :: right.tokens) ++ taken (rest.drop (k + 1)) j).Sublist
            (left.tokens ++ taken (op :: rest) (k + 1 + j + 1)) := by
          rw [List.append_assoc, List.cons_append, taken_cons]
          exact (hrest.cons_cons _).append_left _
        have hcount : 2 + k + j = k + 1 + j + 1 := by omega
        rw [hcount]
        exact hops.trans hall
      · exact List.sublist_append_left _ _
    · exact List.sublist_append_left _ _
  · exact List.sublist_append_left _ _
termination_by 5 * ts.length + 0

theorem tokens_group (rest : List Lexeme) : (group rest).1.tokens.Sublist (taken rest (group rest).2) := by
  rw [group]
  have he := tokens_expression Kind.lowest rest
  split
  next e k hek =>
  rw [hek] at he
  split
  · exact sublist_taken_of_le he (by omega)
  · exact nil_sublist_taken _ _
termination_by 5 * rest.length + 2

theorem tokens_clause (rest : List Lexeme) {c b : Node} {k : Nat} (hc : clause rest = (some (c, b), k)) :
    (c.tokens ++ b.tokens).Sublist (taken rest k) := by
  match rest with
  | [] =>
    rw [clause] at hc
    cases (Prod.mk.inj hc).1
  | t :: rest =>
    rw [clause] at hc
    split at hc
    · split at hc
      next e j he =>
      have hcond := tokens_expression Kind.lowest rest
      rw [he] at hcond
      split at hc
      · split at hc
        · next b' i hb =>
          obtain ⟨hcb, rfl⟩ := Prod.mk.inj hc
          obtain ⟨rfl, rfl⟩ := Prod.mk.inj (Option.some.inj hcb)
          have hboth := sublist_taken_append hcond (sublist_taken_tail (tokens_braces _ hb))
          have hclause : (e.tokens ++ b'.tokens).Sublist (taken (t :: rest) (j + 1 + (1 + i) + 1)) := hboth.cons t.token
          exact sublist_taken_of_le hclause (by omega)
        · cases (Prod.mk.inj hc).1
      · cases (Prod.mk.inj hc).1
    · cases (Prod.mk.inj hc).1
termination_by 5 * rest.length + 2

theorem tokens_braces (ts : List Lexeme) {b : Node} {k : Nat} (hb : braces ts = some (b, k)) :
    b.tokens.Sublist (taken (ts.drop 1) k) := by
  unfold braces at hb
  split at hb
  · next a t rest =>
    split at hb
    · split at hb
      next ss j hs =>
      obtain ⟨rfl, rfl⟩ := Prod.mk.inj (Option.some.inj hb)
      have hss := tokens_statements rest
      rw [hs] at hss
      have hblock : (Node.block t.token ss).tokens.Sublist (taken (t :: rest) (j + 1)) := hss.cons_cons t.token
      exact sublist_taken_of_le hblock (by omega)
    · cases hb
  · cases hb
termination_by 5 * ts.length + 2

theorem tokens_choice (t : Lexeme) (rest : List Lexeme) :
    (choice t rest).1.tokens.Sublist (taken (t :: rest) ((choice t rest).2 + 1)) := by
  rw [choice]
  split
  · exact nil_sublist_taken _ _
  · next c y k hc =>
    have hclause := tokens_clause rest hc
    split
    · split
      · next no j hno =>
        have hall := sublist_taken_append hclause (sublist_taken_tail (tokens_braces _ hno))
        rw [List.append_assoc, ← Nat.add_assoc] at hall
        exact hall.cons_cons _
      · exact nil_sublist_taken _ _
    · have hcond : (Node.cond t.token c y .missing).tokens = t.token :: (c.tokens ++ y.tokens) := by
        rw [tokens, tokens, List.append_nil]
      rw [hcond]
      exact hclause.cons_cons _
termination_by 5 * rest.length + 3

theorem tokens_loop (t : Lexeme) (rest : List Lexeme) :
    (loop t rest).1.tokens.Sublist (taken (t :: rest) ((loop t rest).2 + 1)) := by
  rw [loop]
  split
  · exact nil_sublist_taken _ _
  · next c b k hc => exact (tokens_clause rest hc).cons_cons _
termination_by 5 * rest.length + 3

theorem tokens_statement (ts : List Lexeme) :
    (statement ts).1.tokens.Sublist (taken ts ((statement ts).2 + 1)) := by
  match ts with
  | [] =>
    rw [statement]
    exact nil_sublist_taken _ _
  | t :: rest =>
    rw [statement]
    split
    · have hvalue := tokens_expression Kind.lowest rest.tail
      rw [← List.drop_one] at hvalue ⊢
      have hassign := (sublist_taken_tail hvalue).cons_cons t.token
      rw [← taken_cons] at hassign
      exact sublist_taken_of_le hassign (by dsimp only; omega)
    split
    · have hprint := (tokens_expression Kind.lowest rest).cons_cons t.token
      rw [← taken_cons] at hprint
      exact sublist_taken_of_le hprint (by dsimp only; omega)
    · exact sublist_taken_of_le (tokens_expression Kind.lowest (t :: rest)) (by dsimp only; omega)
termination_by 5 * ts.length + 2

theorem tokens_statements (ts : List Lexeme) : (tokensList (statements ts).1).Sublist (taken ts (statements ts).2) := by
  match ts with
  | [] =>
    rw [statements]
    exact List.nil_sublist _
  | t :: rest =>
    rw [statements]
    split
    · exact List.nil_sublist _
    · exact sublist_taken_append (tokens_statement (t :: rest)) (tokens_statements _)
termination_by 5 * ts.length + 3

end

theorem tokens_programOf (ts : List Lexeme) : (tokensList (programOf ts)).Sublist (ts.map Lexeme.token) := by
  match ts with
  | [] =>
    rw [programOf]
    exact List.nil_sublist _
  | t :: rest =>
    rw [programOf]
    have hboth := (tokens_statement (t :: rest)).append (tokens_programOf (rest.drop (statement (t :: rest)).2))
    have hsplit : taken (t :: rest) ((statement (t :: rest)).2 + 1) ++
        (rest.drop (statement (t :: rest)).2).map Lexeme.token = (t :: rest).map Lexeme.token := by
      rw [taken, ← List.drop_succ_cons, ← List.map_append, List.take_append_drop]
    rw [hsplit] at hboth
    exact hboth
termination_by ts.length
decreasing_by simp only [List.length_drop, List.length_cons]; omega

end Tolerant

/-- However malformed a text is, the tokens of its tree in reading order are some of the tokens of the text, in the
order in which they stand there: nothing is invented, repeated or moved. -/
theorem tokens_parse (s : String) : (Tolerant.parse s).tokens.Sublist ((lexemes s.toList).map Lexeme.token) :=
  Tolerant.tokens_programOf _

end LineLang
