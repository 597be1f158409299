import LineLang.Proofs.StrictParser

/-!
# How far the strict parser looks

A function of the strict parser looks at the terminals that it takes and at the next one. Where it fails, it has looked
at the terminals that fit and at the first one that does not. So its answer stays the same whatever stands behind
these.

* `Agree n ts ts'` : the first `n` terminals are the same, where the end of the terminals counts as one;
* `Reader` : a function that reads something at the front, as those of the parser do;
* `Sees f ts` : the answer of `f` stays the same if the terminals that `f` has looked at do;
* `sees_expression`, `sees_statement`, `sees_lines` : the functions of the parser;
* `program_error` : a program that fails at a terminal fails there whatever follows.
-/

namespace LineLang.Strict

open Grammar

def Agree (n : Nat) (ts ts' : List Placed) : Prop := ts'.take n = ts.take n

namespace Agree

variable {n m k : Nat} {t : Placed} {ts ts' rest : List Placed}

theorem mono (h : Agree n ts ts') (hm : m ≤ n) : Agree m ts ts' := by
  have hmin : min m n = m := Nat.min_eq_left hm
  rw [Agree, ← hmin, ← List.take_take, h, List.take_take]

theorem drop (h : Agree (k + n) ts ts') : Agree n (ts.drop k) (ts'.drop k) := by
  rw [Agree, List.take_drop, List.take_drop, h]

theorem nil (h : Agree (n + 1) [] ts') : ts' = [] := by
  cases ts' with
  | nil => rfl
  | cons t rest => cases h

theorem cons (h : Agree (n + 1) (t :: rest) ts') : ∃ rest', ts' = t :: rest' ∧ Agree n rest rest' := by
  cases ts' with
  | nil => cases h
  | cons t' rest' =>
    obtain ⟨rfl, hr⟩ := List.cons.inj h
    exact ⟨rest', rfl, hr⟩

theorem startsWith (h : Agree (n + 1) ts ts') (kind : Kind) :
    Strict.startsWith kind ts' = Strict.startsWith kind ts := by
  cases ts with
  | nil => rw [h.nil]
  | cons t rest =>
    obtain ⟨rest', rfl, -⟩ := h.cons
    rfl

end Agree

/-- Reads something at the front, and tells how many terminals it takes, or which ones are left where it fails. -/
abbrev Reader (α : Type) := List Placed → Except Rest (α × Nat)

namespace Reader

variable {α β : Type}

def andThen (f : Reader α) (g : α → Reader β) : Reader β := fun ts =>
  match f ts with
  | .error r => .error r
  | .ok (x, k) =>
    match g x (ts.drop k) with
    | .error r => .error r
    | .ok (y, j) => .ok (y, k + j)

/-- Takes `k` terminals, whatever they are. -/
def take (k : Nat) (x : α) : Reader α := fun _ => .ok (x, k)

/-- Fails at the next terminal. -/
def fail : Reader α := fun ts => .error ts

/-- Reads what the kind of the next terminal decides upon. -/
def fork (k : Kind) (yes no : Reader α) : Reader α := fun ts => if startsWith k ts then yes ts else no ts

/-- Takes a terminal, then reads what `f` reads. -/
def skip (f : Reader α) : Reader α := andThen (take 1 ()) fun _ => f

/-- Takes a terminal of kind `k`, then reads what `f` reads. -/
def leaf (k : Kind) (f : Reader α) : Reader α := fork k (skip f) fail

/-- The answer of a reader that starts one terminal later. -/
def behind : Except Rest (α × Nat) → Except Rest (α × Nat)
  | .error r => .error r
  | .ok (x, k) => .ok (x, k + 1)

end Reader

open Reader

/-- What `f` reads at the front of `ts` does not depend on the terminals behind the next one. -/
structure Sees {α : Type} (f : Reader α) (ts : List Placed) : Prop where
  ok : ∀ {x : α} {k : Nat}, f ts = .ok (x, k) → ∀ ts', Agree (k + 1) ts ts' → f ts' = .ok (x, k)
  error : ∀ {r : Rest}, f ts = .error r →
    ∃ m, r = ts.drop m ∧ ∀ ts', Agree (m + 1) ts ts' → f ts' = .error (ts'.drop m)

namespace Sees

variable {α β : Type} {f p : Reader α} {g : α → Reader β} {ts rest : List Placed} {t : Placed}

/-- The next terminal may decide what is read. -/
theorem congr (h : ∀ n ts', Agree (n + 1) ts ts' → f ts' = p ts') (hf : Sees p ts) : Sees f ts := by
  have hsame : f ts = p ts := h 0 ts rfl
  constructor
  · intro x k hx ts' hts
    rw [h k ts' hts]
    exact hf.ok (hsame ▸ hx) ts' hts
  · intro r hr
    obtain ⟨m, hm, he⟩ := hf.error (hsame ▸ hr)
    exact ⟨m, hm, fun ts' hts => (h m ts' hts).trans (he ts' hts)⟩

theorem andThen (hf : Sees f ts) (hg : ∀ x k, f ts = .ok (x, k) → Sees (g x) (ts.drop k)) :
    Sees (Reader.andThen f g) ts := by
  constructor
  · intro y n h ts' hts
    unfold Reader.andThen at h
    split at h
    · cases h
    · next x k hx =>
      split at h
      · cases h
      · next z j hy =>
        obtain ⟨rfl, rfl⟩ := Prod.mk.inj (Except.ok.inj h)
        have hx' := hf.ok hx ts' (hts.mono (by omega))
        have hy' := (hg x k hx).ok hy (ts'.drop k) (Agree.drop (hts.mono (by omega)))
        simp only [Reader.andThen, hx', hy']
  · intro r h
    unfold Reader.andThen at h
    split at h
    · next r' hr =>
      cases h
      obtain ⟨m, rfl, hm⟩ := hf.error hr
      refine ⟨m, rfl, fun ts' hts => ?_⟩
      simp only [Reader.andThen, hm ts' hts]
    · next x k hx =>
      split at h
      · next r' hr =>
        cases h
        obtain ⟨m, rfl, hm⟩ := (hg x k hx).error hr
        refine ⟨k + m, List.drop_drop, fun ts' hts => ?_⟩
        have hx' := hf.ok hx ts' (hts.mono (by omega))
        have hm' := hm (ts'.drop k) (Agree.drop (hts.mono (by omega)))
        simp only [Reader.andThen, hx', hm', List.drop_drop]
      · cases h

theorem take (k : Nat) (x : α) : Sees (Reader.take k x) ts :=
  ⟨fun h _ _ => h, fun h => nomatch h⟩

theorem fail : Sees (Reader.fail : Reader α) ts := by
  constructor
  · intro x k h
    cases h
  · intro r h
    cases h
    exact ⟨0, rfl, fun ts' _ => rfl⟩

theorem fork {k : Kind} {yes no : Reader α} (hy : startsWith k ts = true → Sees yes ts)
    (hn : startsWith k ts = false → Sees no ts) : Sees (Reader.fork k yes no) ts := by
  cases hk : startsWith k ts with
  | true => exact (hy hk).congr fun n ts' h => by rw [Reader.fork, h.startsWith, hk, if_pos rfl]
  | false => exact (hn hk).congr fun n ts' h => by rw [Reader.fork, h.startsWith, hk, if_neg Bool.false_ne_true]

theorem skip (hf : Sees f (ts.drop 1)) : Sees (Reader.skip f) ts := by
  refine (Sees.take 1 ()).andThen fun x k h => ?_
  cases h
  exact hf

theorem leaf {k : Kind} (hf : Sees f (ts.drop 1)) : Sees (Reader.leaf k f) ts :=
  .fork (fun _ => .skip hf) fun _ => .fail

/-- The first terminal decides what is read behind it. -/
theorem behind (h : ∀ rest', f (t :: rest') = Reader.behind (p rest')) (hf : Sees p rest) : Sees f (t :: rest) := by
  constructor
  · intro x n hx ts' hts
    obtain ⟨rest', rfl, hr⟩ := hts.cons
    rw [h] at hx ⊢
    cases hp : p rest with
    | error r =>
      rw [hp] at hx
      cases hx
    | ok q =>
      rw [hp] at hx
      obtain ⟨rfl, rfl⟩ := Prod.mk.inj (Except.ok.inj hx)
      rw [hf.ok hp rest' hr]
      rfl
  · intro r hr
    rw [h] at hr
    cases hp : p rest with
    | error r' =>
      rw [hp] at hr
      cases hr
      obtain ⟨m, hm, he⟩ := hf.error hp
      refine ⟨m + 1, hm, fun ts' hts => ?_⟩
      obtain ⟨rest', rfl, hr⟩ := hts.cons
      rw [h, he rest' hr]
      rfl
    | ok q =>
      rw [hp] at hr
      cases hr

/-- The first terminal decides what is read. -/
theorem head (h : ∀ rest', f (t :: rest') = p (t :: rest')) (hf : Sees p (t :: rest)) : Sees f (t :: rest) := by
  refine hf.congr fun n ts' hts => ?_
  obtain ⟨rest', rfl, -⟩ := hts.cons
  exact h rest'

/-- At the end of the terminals there is nothing to see. -/
theorem nil (h : ∀ r, f [] = .error r → r = []) : Sees f [] := by
  constructor
  · intro x k hx ts' hts
    rw [hts.nil]
    exact hx
  · intro r hr
    obtain rfl := h r hr
    refine ⟨0, rfl, fun ts' hts => ?_⟩
    rw [hts.nil]
    exact hr

end Sees

/-! ## The functions of the parser as readers -/

theorem expression_succ (tier : Nat) (ts : List Placed) :
    expression (tier + 1) ts = andThen (expression tier) (operators tier) ts := by
  rw [expression, andThen]
  cases expression tier ts with
  | error r => rfl
  | ok p =>
    obtain ⟨left, k⟩ := p
    simp only [ok_bind]
    cases operators tier left (ts.drop k) <;> rfl

theorem operators_operator {tier : Nat} {op : Placed} (h : tier? op.kind = some (tier + 1)) (left : Node)
    (rest : List Placed) :
    operators tier left (op :: rest) = behind (andThen (expression tier) (fun right =>
      operators tier (.binary op.lexeme.token left (.str op.lexeme.text) right)) rest) := by
  rw [operators, if_pos h, andThen]
  cases expression tier rest with
  | error r => rfl
  | ok p =>
    obtain ⟨right, k⟩ := p
    simp only [ok_bind]
    cases operators tier (.binary op.lexeme.token left (.str op.lexeme.text) right) (rest.drop k) with
    | error r => rfl
    | ok q =>
      simp only [ok_bind, behind, pure, Except.pure]
      congr 2
      omega

theorem parenthesised_lparen {t : Placed} (h : t.kind = .lparen) (rest : List Placed) :
    parenthesised (t :: rest) = behind (andThen (expression topTier) (fun e => leaf .rparen (take 0 e)) rest) := by
  rw [parenthesised, if_pos h, andThen]
  cases expression topTier rest with
  | error r => rfl
  | ok p =>
    obtain ⟨e, k⟩ := p
    simp only [ok_bind, leaf, fork]
    split <;> rfl

/-- Lines, and the line end that may stand before them. -/
def bodyOf : Reader (List Node) := fork .newline (skip lines) lines

theorem bodyOf_eq (ts : List Placed) :
    bodyOf ts = (lines (ts.drop (if startsWith .newline ts then 1 else 0)) >>= fun p =>
      .ok (p.1, (if startsWith .newline ts then 1 else 0) + p.2)) := by
  rw [bodyOf, fork]
  split
  · simp only [skip, andThen, take]
    cases lines (ts.drop 1) <;> rfl
  · rw [List.drop_zero]
    cases lines ts with
    | error r => rfl
    | ok p => simp only [ok_bind, Nat.zero_add]

theorem block_lbrace {t : Placed} (h : t.kind = .lbrace) (rest : List Placed) :
    block (t :: rest) = behind (andThen bodyOf (fun ss => leaf .rbrace (take 0 (.block t.lexeme.token ss))) rest) := by
  rw [block, if_pos h, andThen, bodyOf_eq]
  generalize (if startsWith .newline rest then 1 else 0) = start
  simp only
  cases lines (rest.drop start) with
  | error r => rfl
  | ok p =>
    obtain ⟨ss, k⟩ := p
    simp only [ok_bind, leaf, fork]
    by_cases hr : startsWith .rbrace (rest.drop (start + k)) = true
    · rw [if_pos hr, if_pos hr]
      rfl
    · rw [if_neg hr, if_neg hr]
      rfl

theorem atom_ifWord {t : Placed} (h : t.kind = .ifWord) (rest : List Placed) :
    atom (t :: rest) = behind (andThen parenthesised (fun c => andThen block fun y =>
      fork .elseWord (skip (andThen block fun n => take 0 (.cond t.lexeme.token c y n)))
        (take 0 (.cond t.lexeme.token c y .missing))) rest) := by
  rw [atom]
  simp only [h, andThen]
  cases parenthesised rest with
  | error r => rfl
  | ok p =>
    obtain ⟨c, k⟩ := p
    simp only [ok_bind]
    cases block (rest.drop k) with
    | error r => rfl
    | ok q =>
      obtain ⟨y, j⟩ := q
      simp only [ok_bind, fork, List.drop_drop]
      split
      · simp only [skip, andThen, take, List.drop_drop]
        cases block (rest.drop (k + j + 1)) with
        | error r => rfl
        | ok o =>
          simp only [ok_bind, behind, pure, Except.pure]
          congr 2
          omega
      · simp only [behind, take, pure, Except.pure]
        congr 2
        omega

theorem atom_whileWord {t : Placed} (h : t.kind = .whileWord) (rest : List Placed) :
    atom (t :: rest) = behind (andThen parenthesised (fun c => andThen block fun b =>
      take 0 (.loop t.lexeme.token c b)) rest) := by
  rw [atom]
  simp only [h, andThen]
  cases parenthesised rest with
  | error r => rfl
  | ok p =>
    obtain ⟨c, k⟩ := p
    simp only [ok_bind]
    cases block (rest.drop k) with
    | error r => rfl
    | ok q =>
      obtain ⟨b, j⟩ := q
      simp only [ok_bind, behind, take, pure, Except.pure]
      congr 2
      omega

/-- The operators behind a name, up to a tier. -/
def named (x : Lexeme) : Nat → Reader Node
  | 0 => take 0 (.ofName x)
  | tier + 1 => andThen (named x tier) (operators tier)

theorem expression_ident {t : Placed} (h : t.kind = .ident) (rest : List Placed) :
    ∀ tier, expression tier (t :: rest) = behind (named t.lexeme tier rest)
  | 0 => by
    rw [expression, atom]
    simp only [h]
    rfl
  | tier + 1 => by
    rw [expression_succ, andThen, expression_ident h rest tier, named, andThen]
    cases named t.lexeme tier rest with
    | error r => rfl
    | ok p =>
      obtain ⟨left, k⟩ := p
      simp only [behind, List.drop_succ_cons]
      cases operators tier left (rest.drop k) with
      | error r => rfl
      | ok q =>
        simp only
        congr 2
        omega

theorem statement_ident {t : Placed} (h : t.kind = .ident) (rest : List Placed) :
    statement (t :: rest) = behind (fork .assign
      (skip (andThen (expression topTier) fun e => take 0 (.assign t.lexeme.token (.ofName t.lexeme) e)))
      (andThen (named t.lexeme topTier) fun e => take 0 (.expr (firstToken e) e)) rest) := by
  rw [statement, fork]
  by_cases hs : startsWith .assign rest = true
  · rw [if_pos hs, if_pos (by simp [h, hs])]
    simp only [skip, andThen, take]
    cases expression topTier (rest.drop 1) with
    | error r => rfl
    | ok p =>
      simp only [ok_bind, behind, pure, Except.pure]
      congr 2
      omega
  · rw [if_neg hs, if_neg (by simp [hs]), if_neg (by simp [h]), expression_ident h]
    simp only [andThen, take]
    cases named t.lexeme topTier rest <;> rfl

theorem statement_printWord {t : Placed} (h : t.kind = .printWord) (rest : List Placed) :
    statement (t :: rest) = behind (andThen (expression topTier)
      (fun e => take 0 (.print t.lexeme.token e)) rest) := by
  rw [statement, if_neg (by simp [h]), if_pos h, andThen]
  cases expression topTier rest <;> rfl

theorem statement_other {t : Placed} (hi : t.kind ≠ .ident) (hp : t.kind ≠ .printWord) (rest : List Placed) :
    statement (t :: rest) = andThen (expression topTier) (fun e => take 0 (.expr (firstToken e) e)) (t :: rest) := by
  rw [statement, if_neg (by simp [hi]), if_neg hp, andThen]
  cases expression topTier (t :: rest) <;> rfl

theorem lines_cons {t : Placed} (h : t.kind ≠ .rbrace) (rest : List Placed) :
    lines (t :: rest) = andThen statement (fun s => fork .newline
      (skip (andThen lines fun ss => take 0 (s :: ss))) (take 0 [s])) (t :: rest) := by
  rw [lines, if_neg h, andThen]
  cases statement (t :: rest) with
  | error r => rfl
  | ok p =>
    obtain ⟨s, k⟩ := p
    simp only [ok_bind, fork]
    split
    · simp only [skip, andThen, take]
      cases lines (((t :: rest).drop k).drop 1) with
      | error r => rfl
      | ok q =>
        simp only [ok_bind, pure, Except.pure]
        congr 2
        omega
    · rfl

/-! ## How far they look -/

theorem sees_named (x : Lexeme) {ts : List Placed} (h : ∀ tier left k, Sees (operators tier left) (ts.drop k)) :
    ∀ tier, Sees (named x tier) ts
  | 0 => .take _ _
  | tier + 1 => (sees_named x h tier).andThen fun left k _ => h tier left k

mutual

theorem sees_expression (tier : Nat) (ts : List Placed) : Sees (expression tier) ts := by
  match tier with
  | 0 =>
    refine (sees_atom ts).congr fun n ts' _ => ?_
    rw [expression]
  | tier + 1 =>
    refine Sees.congr (fun n ts' _ => expression_succ tier ts') ?_
    exact (sees_expression tier ts).andThen fun left k _ => sees_operators tier left (ts.drop k)
termination_by (ts.length, 3 * tier + 2)
decreasing_by all_goals exact Prod.lex_def.2 (by grind)

theorem sees_operators (tier : Nat) (left : Node) (ts : List Placed) : Sees (operators tier left) ts := by
  match ts with
  | [] => exact .nil fun r h => by rw [operators] at h; cases h
  | op :: rest =>
    by_cases hop : tier? op.kind = some (tier + 1)
    · refine .behind (operators_operator hop left) ?_
      exact (sees_expression tier rest).andThen fun right k _ => sees_operators tier _ (rest.drop k)
    · refine .head (p := take 0 left) (fun rest' => ?_) (.take _ _)
      rw [operators, if_neg hop]
      rfl
termination_by (ts.length, 3 * tier + 3)
decreasing_by all_goals exact Prod.lex_def.2 (by grind)

theorem sees_atom (ts : List Placed) : Sees atom ts := by
  match ts with
  | [] => exact .nil fun r h => by rw [atom] at h; cases h; rfl
  | t :: rest =>
    cases hk : t.kind with
    | ident =>
      refine .head (p := take 1 (.ofName t.lexeme)) (fun rest' => ?_) (.take _ _)
      rw [atom]
      simp only [hk]
      rfl
    | num =>
      refine .head (p := take 1 (.int t.lexeme.token (Numeral.literalValue t.lexeme.text))) (fun rest' => ?_)
        (.take _ _)
      rw [atom]
      simp only [hk]
      rfl
    | lparen =>
      refine .head (p := parenthesised) (fun rest' => ?_) (sees_parenthesised (t :: rest))
      rw [atom]
      simp only [hk]
    | ifWord =>
      refine .behind (atom_ifWord hk) ?_
      refine (sees_parenthesised rest).andThen fun c k _ => (sees_block (rest.drop k)).andThen fun y j _ => ?_
      rw [List.drop_drop]
      refine .fork (fun _ => .skip ?_) fun _ => .take _ _
      rw [List.drop_drop]
      exact (sees_block (rest.drop (k + j + 1))).andThen fun n i _ => .take _ _
    | whileWord =>
      refine .behind (atom_whileWord hk) ?_
      exact (sees_parenthesised rest).andThen fun c k _ => (sees_block (rest.drop k)).andThen fun b j _ => .take _ _
    | _ =>
      refine .head (p := Reader.fail) (fun rest' => ?_) .fail
      rw [atom]
      simp only [hk]
      rfl
termination_by (ts.length, 1)

theorem sees_parenthesised (ts : List Placed) : Sees parenthesised ts := by
  match ts with
  | [] => exact .nil fun r h => by rw [parenthesised] at h; cases h; rfl
  | t :: rest =>
    by_cases ht : t.kind = .lparen
    · refine .behind (parenthesised_lparen ht) ?_
      exact (sees_expression topTier rest).andThen fun e k _ => .leaf (.take _ _)
    · refine .head (p := Reader.fail) (fun rest' => ?_) .fail
      rw [parenthesised, if_neg ht]
      rfl
termination_by (ts.length, 0)

theorem sees_block (ts : List Placed) : Sees block ts := by
  match ts with
  | [] => exact .nil fun r h => by rw [block] at h; cases h; rfl
  | t :: rest =>
    by_cases ht : t.kind = .lbrace
    · refine .behind (block_lbrace ht) ?_
      have hb : Sees bodyOf rest := .fork (fun _ => .skip (sees_lines (rest.drop 1))) fun _ => sees_lines rest
      exact hb.andThen fun ss k _ => .leaf (.take _ _)
    · refine .head (p := Reader.fail) (fun rest' => ?_) .fail
      rw [block, if_neg ht]
      rfl
termination_by (ts.length, 0)

theorem sees_statement (ts : List Placed) : Sees statement ts := by
  match ts with
  | [] => exact .nil fun r h => by rw [statement] at h; cases h; rfl
  | t :: rest =>
    by_cases hi : t.kind = .ident
    · refine .behind (statement_ident hi) (.fork (fun _ => .skip ?_) fun _ => ?_)
      · exact (sees_expression topTier (rest.drop 1)).andThen fun e k _ => .take _ _
      · exact (sees_named t.lexeme (fun tier left k => sees_operators tier left (rest.drop k)) topTier).andThen
          fun e k _ => .take _ _
    by_cases hp : t.kind = .printWord
    · refine .behind (statement_printWord hp) ?_
      exact (sees_expression topTier rest).andThen fun e k _ => .take _ _
    · refine .head (statement_other hi hp) ?_
      exact (sees_expression topTier (t :: rest)).andThen fun e k _ => .take _ _
termination_by (ts.length, 3 * topTier + 3)

theorem sees_lines (ts : List Placed) : Sees lines ts := by
  match ts with
  | [] => exact .nil fun r h => by rw [lines] at h; cases h
  | t :: rest =>
    by_cases ht : t.kind = .rbrace
    · refine .head (p := take 0 []) (fun rest' => ?_) (.take _ _)
      rw [lines, if_pos ht]
      rfl
    · refine .head (lines_cons ht) ?_
      refine (sees_statement (t :: rest)).andThen fun s k _ => .fork (fun _ => .skip ?_) fun _ => .take _ _
      exact (sees_lines (((t :: rest).drop k).drop 1)).andThen fun ss j _ => .take _ _
termination_by (ts.length, 3 * topTier + 4)

end

/-! ## Programs -/

theorem program_eq (ts : List Placed) :
    program ts = match bodyOf ts with
      | .error r => .error r
      | .ok (ss, k) => if ts.drop k = [] then .ok ss else .error (ts.drop k) := by
  rw [program, bodyOf_eq]
  generalize (if startsWith .newline ts then 1 else 0) = start
  simp only
  cases lines (ts.drop start) with
  | error r => rfl
  | ok p =>
    simp only [ok_bind]
    cases ts.drop (start + p.2) <;> rfl

theorem sees_bodyOf (ts : List Placed) : Sees bodyOf ts :=
  .fork (fun _ => .skip (sees_lines (ts.drop 1))) fun _ => sees_lines ts

/-- Whatever follows the terminal `t`, the terminals up to it are the same. -/
theorem agree_of_drop {ts r : List Placed} {t : Placed} {m : Nat} (h : ts.drop m = t :: r) (r' : List Placed) :
    Agree (m + 1) ts (ts.take m ++ t :: r') ∧ (ts.take m ++ t :: r').drop m = t :: r' := by
  have hlen : (ts.take m).length = m := by
    have hpos := congrArg List.length h
    simp only [List.length_drop, List.length_cons] at hpos
    rw [List.length_take]
    omega
  refine ⟨?_, List.drop_left' hlen⟩
  calc (ts.take m ++ t :: r').take (m + 1)
      = ts.take m ++ [t] := by rw [List.take_append, hlen, Nat.add_sub_cancel_left, List.take_take]; simp
    _ = ts.take m ++ (ts.drop m).take 1 := by rw [h]; rfl
    _ = ts.take (m + 1) := List.take_add.symm

/-- A program that fails at a terminal fails there whatever follows. -/
theorem program_error {ts r : List Placed} {t : Placed} (h : program ts = .error (t :: r)) :
    ∃ front, ts = front ++ t :: r ∧ ∀ r', program (front ++ t :: r') = .error (t :: r') := by
  rw [program_eq] at h
  cases hb : bodyOf ts with
  | error r' =>
    rw [hb] at h
    obtain rfl := Except.error.inj h
    obtain ⟨m, hm, he⟩ := (sees_bodyOf ts).error hb
    refine ⟨ts.take m, by rw [hm, List.take_append_drop], fun r' => ?_⟩
    obtain ⟨hagree, hdrop⟩ := agree_of_drop hm.symm r'
    rw [program_eq, he _ hagree, hdrop]
  | ok p =>
    obtain ⟨ss, k⟩ := p
    rw [hb] at h
    simp only at h
    split at h
    · cases h
    · have hk := Except.error.inj h
      refine ⟨ts.take k, by rw [← hk, List.take_append_drop], fun r' => ?_⟩
      obtain ⟨hagree, hdrop⟩ := agree_of_drop hk r'
      rw [program_eq, (sees_bodyOf ts).ok hb _ hagree]
      simp only [hdrop]
      rw [if_neg (List.cons_ne_nil _ _)]

end LineLang.Strict
