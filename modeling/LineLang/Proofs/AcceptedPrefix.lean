import Mathlib
import LineLang.Proofs.Evaluation
import LineLang.Proofs.LineBreaks
import LineLang.Proofs.ScannersAgree

/-!
# Behind an accepted text

Where the strict parser accepts a text and prints end their lines in its blocks, the tolerant parser is back at its
start behind the last line, whatever follows. So what follows can be parsed and run by itself.

* `Tolerant.programOf_of_statement` : a statement that is read, and the program behind it;
* `Grammar.Derivation.programOf_statement` : so for a statement of an accepted text on a line of its own;
* `Grammar.Derivation.solid_lines`, `Grammar.Derivation.solid_body` : the statements of the lines of an accepted text
  and those behind a line feed;
* `parse_behind_accepted` : parsing and evaluating an accepted text and any other behind it.
-/

namespace LineLang

open Strict (IsTerminal Splits)

/-! ## Lines and what follows them -/

namespace Tolerant

theorem programOf_of_statement {u rest : List Lexeme} {s : Node} (h : ReadsStatement u s rest) :
    programOf (u ++ rest) = s :: programOf rest := by
  obtain ⟨t, v, k, hu, -, hs, hv⟩ := h
  rw [hu, programOf_cons hs, hv]

theorem solid_programOf_newlines {nl : Lexeme} (h : nl.kind = .newline) (ts : List Lexeme) (n : Nat) :
    Node.solid (programOf (List.replicate n nl ++ ts)) = Node.solid (programOf ts) := by
  induction n with
  | zero => rfl
  | succ n ih => rw [List.replicate_succ, List.cons_append, solid_programOf_newline h, ih]

end Tolerant

namespace Grammar.Derivation

open Tolerant

/-- A statement on a line of its own. -/
theorem programOf_statement (d : Derivation .statement) (hd : ∀ t ∈ d.yield, IsTerminal t)
    (hp : d.printsEndLines = true) :
    ∃ s, programOf d.lexemes = [s] ∧ ∀ nl : Lexeme, nl.kind = .newline → ∀ rest,
      programOf (d.lexemes ++ nl :: rest) = s :: programOf rest := by
  obtain ⟨s, -, hread⟩ := d.agrees hd hp
  refine ⟨s, ?_, fun nl hnl rest => ?_⟩
  · have hlast := programOf_of_statement (hread [] [] (.inr ⟨rfl, .inl rfl⟩) fun _ _ => rfl)
    rwa [List.append_nil, List.append_nil, programOf] at hlast
  · have hline := programOf_of_statement
      (hread [nl] rest (.inl ⟨nl, rfl, hnl⟩) fun _ h => absurd h (List.cons_ne_nil nl []))
    rwa [List.append_assoc, List.singleton_append] at hline

theorem solid_lines {nl : Lexeme} (hnl : nl.kind = .newline) (rest : List Lexeme) :
    ∀ d : Derivation .lines, (∀ t ∈ d.yield, IsTerminal t) → d.printsEndLines = true →
      Node.solid (programOf (d.lexemes ++ nl :: rest)) = Node.solid (programOf d.lexemes) ++ Node.solid (programOf rest)
  | .noLine, _, _ => by
    rw [lexemes, yield, List.flatMap_nil, List.nil_append, solid_programOf_newline hnl, programOf]
    rfl
  | .lastLine s, hd, hp => by
    obtain ⟨s', hlast, hline⟩ := s.programOf_statement hd hp
    have hlex : (Derivation.lastLine s).lexemes = s.lexemes := rfl
    rw [hlex, hlast, hline nl hnl, Node.solid_cons, Node.solid_cons]
    split <;> rfl
  | .line s x more, hd, hp => by
    simp only [yield, List.forall_mem_cons, List.forall_mem_append] at hd
    obtain ⟨hps, hpm⟩ := Bool.and_eq_true_iff.1 hp
    obtain ⟨s', -, hline⟩ := s.programOf_statement hd.1 hps
    obtain ⟨n, hlex⟩ := lexemes_line s hd.2.1 more
    rw [hlex, List.append_assoc, List.cons_append, List.append_assoc, hline _ rfl, hline _ rfl, Node.solid_cons,
      Node.solid_cons, solid_programOf_newlines rfl, solid_programOf_newlines rfl, solid_lines hnl rest more hd.2.2 hpm]
    split <;> rfl

/-- The statements of an accepted text and those behind it, apart from blank ones. -/
theorem solid_body {nl : Lexeme} (hnl : nl.kind = .newline) (rest : List Lexeme) (d : Derivation .body)
    (hd : ∀ t ∈ d.yield, IsTerminal t) (hp : d.printsEndLines = true) :
    Node.solid (programOf (d.lexemes ++ nl :: rest)) =
      Node.solid (programOf d.lexemes) ++ Node.solid (programOf rest) := by
  match d with
  | .body none content => exact solid_lines hnl rest content hd hp
  | .body (some x) content =>
    simp only [yield, List.forall_mem_append] at hd
    obtain ⟨n, hlex⟩ := lexemes_body (hd.1 x.1 (by simp)) content
    rw [hlex, List.append_assoc, solid_programOf_newlines rfl, solid_programOf_newlines rfl,
      solid_lines hnl rest content hd.2 hp]

end Grammar.Derivation

/-! ## Texts -/

open Tolerant in
/-- Behind a text that the strict parser accepts, with prints that end their lines, any text is parsed as by itself, up
to blank statements. Evaluating the two together ends as evaluating them one after the other does: in the same state,
with the value of the second one or, where that is missing, the value of the first. -/
theorem parse_behind_accepted {s₁ : String} {tree : Node} (h : Strict.parse s₁ = .ok tree) (hp : PrintsEndLines s₁)
    (s₂ : String) :
    (∃ ss₁ ss₂, (parse s₁).pruned = .root ss₁ ∧ (parse s₂).pruned = .root ss₂ ∧
      (parse (s₁ ++ "\n" ++ s₂)).pruned = .root (ss₁ ++ ss₂)) ∧
    ∀ (level : Int) (s s' : State) (o : Except Fault Value),
      Ends level (parse (s₁ ++ "\n" ++ s₂)) s o s' ↔ ∃ v₁ t v₂, Ends level (parse s₁) s (.ok v₁) t ∧
        Ends level (parse s₂) t (.ok v₂) s' ∧ o = .ok (if v₂.isMissing then v₁ else v₂) := by
  obtain ⟨d, hs, -⟩ := Strict.parse_eq_ok_iff.1 h
  obtain ⟨d', hs', hd⟩ := hp
  obtain rfl := d.unambiguous d' (hs.unique hs')
  have hsolid : Node.solid (programOf (lexemes (s₁ ++ "\n" ++ s₂).toList)) =
      Node.solid (programOf (lexemes s₁.toList)) ++ Node.solid (programOf (lexemes s₂.toList)) := by
    rw [lexemes_lines hs.before.nul_not_mem, Strict.lexemes_of_splits hs]
    exact d.solid_body rfl (lexemes s₂.toList) hs.isTerminal hd
  constructor
  · exact ⟨_, _, rfl, rfl, congrArg Node.root (Node.prunedList_append hsolid)⟩
  · intro level s s' o
    constructor
    · intro hends
      obtain ⟨v, rfl⟩ := hends.ok_of_named (named_of_parsed (.inr ⟨_, rfl⟩))
      obtain ⟨v₁, t, v₂, h₁, h₂, rfl⟩ := (ends_root_append hsolid).1 hends
      exact ⟨v₁, t, v₂, h₁, h₂, rfl⟩
    · rintro ⟨v₁, t, v₂, h₁, h₂, rfl⟩
      exact (ends_root_append hsolid).2 ⟨v₁, t, v₂, h₁, h₂, rfl⟩

open Tolerant in
/-- A loop, a name in parentheses and a print statement; behind them lexemes that could go on with each of these, and an
assignment. -/
theorem parse_behind_accepted_malformed :
    Strict.parse "while (a < 2) \x7b\n\n  print a\n\x7d\n(b)\nprint c" = .ok (.root loopAndPrint.tree) ∧
    PrintsEndLines "while (a < 2) \x7b\n\n  print a\n\x7d\n(b)\nprint c" ∧
    (∃ ss₁ ss₂, (parse "while (a < 2) \x7b\n\n  print a\n\x7d\n(b)\nprint c").pruned = .root ss₁ ∧
      (parse "+ ) else \x7b\nc = 7\nc").pruned = .root ss₂ ∧
      (parse ("while (a < 2) \x7b\n\n  print a\n\x7d\n(b)\nprint c" ++ "\n" ++ "+ ) else \x7b\nc = 7\nc")).pruned =
        .root (ss₁ ++ ss₂)) ∧
    Ends 0 (parse ("while (a < 2) \x7b\n\n  print a\n\x7d\n(b)\nprint c" ++ "\n" ++ "+ ) else \x7b\nc = 7\nc"))
      { store := .empty } (.ok (.int 7)) { store := ⟨[(.str "c", .int 7)]⟩ } := by
  have hs : Splits "while (a < 2) \x7b\n\n  print a\n\x7d\n(b)\nprint c".toList loopAndPrint.yield :=
    Strict.splits_iff_scan.2 ⟨by cbv, by cbv⟩
  have h := Strict.parse_eq_ok_iff.2 ⟨loopAndPrint, hs, rfl⟩
  have hp : PrintsEndLines "while (a < 2) \x7b\n\n  print a\n\x7d\n(b)\nprint c" := ⟨loopAndPrint, hs, by decide⟩
  obtain ⟨hparse, hends⟩ := parse_behind_accepted h hp "+ ) else \x7b\nc = 7\nc"
  refine ⟨h, hp, hparse, (hends 0 _ _ _).2 ⟨.printed .missing, { store := .empty }, .int 7, ⟨8, ?_⟩, ⟨8, ?_⟩, rfl⟩⟩
  · cbv
  · cbv

end LineLang
