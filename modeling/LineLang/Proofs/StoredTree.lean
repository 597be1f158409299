import LineLang.Proofs.JsonText
import LineLang.Proofs.Numerals
import LineLang.Tree.Json
import LineLang.Tree.Tolerant

/-!
# Stored trees

* `Node.ofJson_toJson` : any tree is loaded from the datum that stores it;
* `Node.Grown n` : the trees that the tolerant parser can make of any lexemes, built up from lexemes;
* `Node.Grown.plain` : the datum of such a tree is plain, so its text is read back;
* `Tolerant.grown_parse` : the tree of a text is one of them.
-/

namespace LineLang

theorem Token.ofJson_toJson (t : Token) : Token.ofJson t.toJson = .ok t := by
  have hkind := Kind.ofName?_name t.kind
  simp only [toJson, ofJson, List.lookup_cons, beq_self_eq_true, hkind]
  rfl

/-- The token of a stored tree stands behind its kind. -/
theorem Fields.token_stored (kind : Field) (t : Token) (tree : Except LoadFault Node)
    (trees : Except LoadFault (List Node)) (rest : Fields) :
    Fields.token (("type", kind) :: ("token", ⟨t.toJson, tree, trees⟩) :: rest) = .ok t := Token.ofJson_toJson t

namespace Node

/-! ## Trees from their data -/

mutual

/-- A tree is loaded from the datum that stores it. -/
theorem ofJson_toJson : ∀ n : Node, ofJson n.toJson = .ok n
  | .missing => by rw [toJson, ofJson]
  | .root ss => by
    simp only [toJson, ofJson, readFields, sequenceOf, ofJsonList_toJsonList ss]
    rfl
  | .assign t n v => by
    simp only [toJson, ofJson, readFields, ofJson_toJson n, ofJson_toJson v, Fields.assemble, Fields.token_stored]
    rfl
  | .print t v => by
    simp only [toJson, ofJson, readFields, ofJson_toJson v, Fields.assemble, Fields.token_stored]
    rfl
  | .expr t e => by
    simp only [toJson, ofJson, readFields, ofJson_toJson e, Fields.assemble, Fields.token_stored]
    rfl
  | .block t ss => by
    simp only [toJson, ofJson, readFields, sequenceOf, ofJsonList_toJsonList ss, Fields.assemble, Fields.token_stored]
    rfl
  | .cond t c y n => by
    simp only [toJson, ofJson, readFields, ofJson_toJson c, ofJson_toJson y, ofJson_toJson n, Fields.assemble,
      Fields.token_stored]
    rfl
  | .loop t c b => by
    simp only [toJson, ofJson, readFields, ofJson_toJson c, ofJson_toJson b, Fields.assemble, Fields.token_stored]
    rfl
  | .ident t name => by
    simp only [toJson, ofJson, readFields, Fields.assemble, Fields.token_stored]
    rfl
  | .int t v => by
    simp only [toJson, ofJson, readFields, Fields.assemble, Fields.token_stored]
    rfl
  | .binary t l o r => by
    simp only [toJson, ofJson, readFields, ofJson_toJson l, ofJson_toJson r, Fields.assemble, Fields.token_stored]
    rfl
  | .unary t o r => by
    simp only [toJson, ofJson, readFields, ofJson_toJson r, Fields.assemble, Fields.token_stored]
    rfl

theorem ofJsonList_toJsonList : ∀ ns : List Node, ofJsonList (toJsonList ns) = .ok ns
  | [] => by rw [toJsonList, ofJsonList]
  | n :: ns => by
    rw [toJsonList, ofJsonList, ofJson_toJson n, ofJsonList_toJsonList ns]
    rfl

end

end Node

/-! ## Numbers of programs -/

namespace Numeral

/-- A number that a text denotes has no more digits than a text may hold. -/
theorem holds_of_read {s : String} {n : Int} (h : read s = .ok n) : Json.Holds n := by
  obtain ⟨factor, ds, hform, rfl, hlen⟩ := form_of_read h
  have hlt : (number factor ds).natAbs < 10 ^ digitLimit :=
    Nat.lt_of_lt_of_le hform.natAbs_lt (Nat.pow_le_pow_right (by decide) hlen)
  exact Text.Decimal.length_digitsOf_le (by decide) hlt

theorem holds_literalValue (s : String) : Json.Holds (literalValue s) := by
  have zero : Json.Holds 0 := Text.Decimal.length_digitsOf_le (by decide) (Nat.pow_pos (by decide))
  unfold literalValue
  split
  · exact zero
  · next n h =>
    split
    · exact zero
    · exact holds_of_read h

end Numeral

/-! ## Trees of the tolerant parser -/

namespace Node

/-- A tree built up from lexemes, with parts missing anywhere. -/
inductive Grown : Node → Prop where
  | missing : Grown .missing
  | root {ss : List Node} (h : ∀ s ∈ ss, Grown s) : Grown (.root ss)
  | name (t : Lexeme) : Grown (.ofName t)
  | integer (t : Lexeme) : Grown (Tolerant.integer t)
  | binary (t : Lexeme) {left right : Node} (hl : Grown left) (hr : Grown right) :
    Grown (.binary t.token left (.str t.text) right)
  | block (t : Lexeme) {ss : List Node} (h : ∀ s ∈ ss, Grown s) : Grown (.block t.token ss)
  | cond (t : Lexeme) {condition yes no : Node} (hc : Grown condition) (hy : Grown yes) (hn : Grown no) :
    Grown (.cond t.token condition yes no)
  | loop (t : Lexeme) {condition body : Node} (hc : Grown condition) (hb : Grown body) :
    Grown (.loop t.token condition body)
  | assign (t : Lexeme) {value : Node} (hv : Grown value) : Grown (.assign t.token (.ofName t) value)
  | print (t : Lexeme) {value : Node} (hv : Grown value) : Grown (.print t.token value)
  | expr (t : Lexeme) {e : Node} (he : Grown e) : Grown (.expr t.token e)

open Json (Plain)

theorem mem_toJsonList {j : Json} : ∀ {ns : List Node}, j ∈ toJsonList ns → ∃ n ∈ ns, j = n.toJson
  | n :: ns, h => by
    rw [toJsonList, List.mem_cons] at h
    rcases h with rfl | h
    · exact ⟨n, List.mem_cons_self, rfl⟩
    · obtain ⟨m, hm, hj⟩ := mem_toJsonList h
      exact ⟨m, List.mem_cons_of_mem n hm, hj⟩

theorem plain_list {ns : List Node} (h : ∀ n ∈ ns, Plain n.toJson) : Plain (.arr (toJsonList ns)) := by
  refine .arr fun j hj => ?_
  obtain ⟨n, hn, rfl⟩ := mem_toJsonList hj
  exact h n hn

/-- An object with a kind and the token of a lexeme in front of its other fields. -/
theorem plain_record (kind : String) (t : Lexeme) {fields : List (String × Json)}
    (hd : ("type" :: "token" :: fields.map Prod.fst).Nodup) (h : ∀ f ∈ fields, Plain f.2) :
    Plain (.obj (("type", .str kind) :: ("token", t.token.toJson) :: fields)) := by
  have htoken : Plain t.token.toJson :=
    .obj (show ["type", "literal"].Nodup by decide)
      (List.forall_mem_cons.2 ⟨.str _, List.forall_mem_singleton.2 (.str _)⟩)
  exact .obj hd (List.forall_mem_cons.2 ⟨.str kind, List.forall_mem_cons.2 ⟨htoken, h⟩⟩)

/-- The datum of a tree that is built up from lexemes is plain. -/
theorem Grown.plain {n : Node} (h : Grown n) : Plain n.toJson := by
  have hname : ∀ t : Lexeme, Plain (ofName t).toJson := fun t =>
    plain_record _ t (show ["type", "token", "name"].Nodup by decide) (List.forall_mem_singleton.2 (.str _))
  induction h with
  | missing => exact .null
  | root h ih =>
    exact .obj (show ["type", "statements"].Nodup by decide)
      (List.forall_mem_cons.2 ⟨.str _, List.forall_mem_singleton.2 (plain_list ih)⟩)
  | name t => exact hname t
  | integer t =>
    exact plain_record _ t (show ["type", "token", "value"].Nodup by decide)
      (List.forall_mem_singleton.2 (.int (Numeral.holds_literalValue t.text)))
  | binary t hl hr ihl ihr =>
    refine plain_record _ t (show ["type", "token", "left", "operator", "right"].Nodup by decide) ?_
    exact List.forall_mem_cons.2 ⟨ihl, List.forall_mem_cons.2 ⟨.str _, List.forall_mem_singleton.2 ihr⟩⟩
  | block t h ih =>
    exact plain_record _ t (show ["type", "token", "statements"].Nodup by decide)
      (List.forall_mem_singleton.2 (plain_list ih))
  | cond t hc hy hn ihc ihy ihn =>
    refine plain_record _ t (show ["type", "token", "condition", "true_branch", "false_branch"].Nodup by decide) ?_
    exact List.forall_mem_cons.2 ⟨ihc, List.forall_mem_cons.2 ⟨ihy, List.forall_mem_singleton.2 ihn⟩⟩
  | loop t hc hb ihc ihb =>
    refine plain_record _ t (show ["type", "token", "condition", "body"].Nodup by decide) ?_
    exact List.forall_mem_cons.2 ⟨ihc, List.forall_mem_singleton.2 ihb⟩
  | assign t hv ihv =>
    refine plain_record _ t (show ["type", "token", "name", "value"].Nodup by decide) ?_
    exact List.forall_mem_cons.2 ⟨hname t, List.forall_mem_singleton.2 ihv⟩
  | print t hv ihv =>
    exact plain_record _ t (show ["type", "token", "value"].Nodup by decide) (List.forall_mem_singleton.2 ihv)
  | expr t he ihe =>
    exact plain_record _ t (show ["type", "token", "expression"].Nodup by decide) (List.forall_mem_singleton.2 ihe)

end Node

namespace Tolerant

open Node (Grown)

mutual

theorem grown_expression (p : Int) (ts : List Lexeme) : Grown (expression p ts).1 := by
  match ts with
  | [] =>
    rw [expression]
    exact .missing
  | t :: rest =>
    rw [expression]
    split
    · exact .missing
    · next left k ho => exact grown_operators p left _ (grown_operand t rest ho)
termination_by 5 * ts.length + 1

theorem grown_operand (t : Lexeme) (rest : List Lexeme) {e : Node} {k : Nat} (ho : operand t rest = some (e, k)) :
    Grown e := by
  rw [operand] at ho
  split at ho
  · obtain ⟨rfl, -⟩ := Prod.mk.inj (Option.some.inj ho)
    exact .name t
  · obtain ⟨rfl, -⟩ := Prod.mk.inj (Option.some.inj ho)
    exact .integer t
  · have hg := grown_group rest
    rwa [Option.some.inj ho] at hg
  · have hc := grown_choice t rest
    rwa [Option.some.inj ho] at hc
  · have hl := grown_loop t rest
    rwa [Option.some.inj ho] at hl
  · cases ho
termination_by 5 * rest.length + 4

theorem grown_operators (p : Int) (left : Node) (ts : List Lexeme) (hl : Grown left) :
    Grown (operators p left ts).1 := by
  unfold operators
  split
  · next a op rest =>
    split
    · next q hq =>
      split
      · exact grown_operators p _ _ (.binary op hl (grown_expression q rest))
      · exact hl
    · exact hl
  · exact hl
termination_by 5 * ts.length + 0

theorem grown_group (rest : List Lexeme) : Grown (group rest).1 := by
  rw [group]
  have he := grown_expression Kind.lowest rest
  split
  next e k hek =>
  rw [hek] at he
  split
  · exact he
  · exact .missing
termination_by 5 * rest.length + 2

theorem grown_clause (rest : List Lexeme) {c b : Node} {k : Nat} (hc : clause rest = (some (c, b), k)) :
    Grown c ∧ Grown b := by
  match rest with
  | [] =>
    rw [clause] at hc
    cases (Prod.mk.inj hc).1
  | t :: rest =>
    rw [clause] at hc
    split at hc
    · split at hc
      next e j he =>
      have hm := grown_expression Kind.lowest rest
      rw [he] at hm
      split at hc
      · split at hc
        · next b' i hb =>
          obtain ⟨hcb, -⟩ := Prod.mk.inj hc
          obtain ⟨rfl, rfl⟩ := Prod.mk.inj (Option.some.inj hcb)
          exact ⟨hm, grown_braces _ hb⟩
        · cases (Prod.mk.inj hc).1
      · cases (Prod.mk.inj hc).1
    · cases (Prod.mk.inj hc).1
termination_by 5 * rest.length + 2

theorem grown_braces (ts : List Lexeme) {b : Node} {k : Nat} (hb : braces ts = some (b, k)) : Grown b := by
  unfold braces at hb
  split at hb
  · next a t rest =>
    split at hb
    · split at hb
      next ss j hs =>
      obtain ⟨rfl, -⟩ := Prod.mk.inj (Option.some.inj hb)
      have hss := grown_statements rest
      rw [hs] at hss
      exact .block t hss
    · cases hb
  · cases hb
termination_by 5 * ts.length + 2

theorem grown_choice (t : Lexeme) (rest : List Lexeme) : Grown (choice t rest).1 := by
  rw [choice]
  split
  · exact .missing
  · next c y k hc =>
    obtain ⟨hcg, hy⟩ := grown_clause rest hc
    split
    · split
      · next n j hn => exact .cond t hcg hy (grown_braces _ hn)
      · exact .missing
    · exact .cond t hcg hy .missing
termination_by 5 * rest.length + 3

theorem grown_loop (t : Lexeme) (rest : List Lexeme) : Grown (loop t rest).1 := by
  rw [loop]
  split
  · exact .missing
  · next c b k hc =>
    obtain ⟨hcg, hb⟩ := grown_clause rest hc
    exact .loop t hcg hb
termination_by 5 * rest.length + 3

theorem grown_statement (ts : List Lexeme) : Grown (statement ts).1 := by
  match ts with
  | [] =>
    rw [statement]
    exact .expr .eof .missing
  | t :: rest =>
    rw [statement]
    split
    · exact .assign t (grown_expression Kind.lowest rest.tail)
    split
    · exact .print t (grown_expression Kind.lowest rest)
    · exact .expr t (grown_expression Kind.lowest (t :: rest))
termination_by 5 * ts.length + 2

theorem grown_statements (ts : List Lexeme) : ∀ s ∈ (statements ts).1, Grown s := by
  match ts with
  | [] =>
    rw [statements]
    exact fun s hs => absurd hs List.not_mem_nil
  | t :: rest =>
    rw [statements]
    split
    · exact fun s hs => absurd hs List.not_mem_nil
    · exact List.forall_mem_cons.2 ⟨grown_statement (t :: rest), grown_statements _⟩
termination_by 5 * ts.length + 3

end

theorem grown_programOf (ts : List Lexeme) : ∀ s ∈ programOf ts, Grown s := by
  match ts with
  | [] =>
    rw [programOf]
    exact fun s hs => absurd hs List.not_mem_nil
  | t :: rest =>
    rw [programOf]
    exact List.forall_mem_cons.2 ⟨grown_statement (t :: rest), grown_programOf _⟩
termination_by ts.length

/-- The tree of a text is built up from lexemes. -/
theorem grown_parse (s : String) : Grown (parse s) := .root (grown_programOf _)

end Tolerant

end LineLang
