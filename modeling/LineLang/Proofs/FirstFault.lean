import Mathlib
import LineLang.Proofs.ViablePrefix

/-!
# The first fault of a text

The strict parser reports the first thing that does not fit, at the place where it stands.

* `Text.Position.behind cs` : the place behind the characters `cs`, by counting;
* `SplitsBefore rest cs ts` : in front of `rest`, the characters `cs` consist of the terminals `ts`;
* `Accepted ts`, `Viable ts` : the terminals of an accepted text, and a beginning of such terminals;
* `Stands place cs scanned pre rest r` : in `cs`, the terminals `r` of the scanned ones begin at `rest`, behind `pre`;
* `Reports fault pre rest ts` : what a fault says about the text where it lies;
* `parse_error_at_first_fault` : the fault of a text that is not accepted.
-/

namespace LineLang

open Grammar Strict

/-! ## Places -/

namespace Text.Position

/-- The place behind `cs`: one line more than it has line feeds, and one column more than it has characters behind the
last of them. -/
def behind (cs : List Char) : Position :=
  ⟨cs.count '\n' + 1, (cs.reverse.takeWhile (· ≠ '\n')).length + 1⟩

theorem start_after_reverse (cs : List Char) : start.after cs.reverse = behind cs.reverse := by
  induction cs with
  | nil => rfl
  | cons c cs ih =>
    rw [List.reverse_cons, after_append, ih, after_cons, after_nil, next]
    by_cases hc : c = '\n'
    · subst hc
      simp [behind]
    · simp [behind, hc, List.count_append]

theorem start_after (cs : List Char) : start.after cs = behind cs := by
  rw [← List.reverse_reverse cs]
  exact start_after_reverse cs.reverse

end Text.Position

/-! ## Cutting up to a place -/

namespace Strict

inductive SplitsBefore (rest : List Char) : List Char → List Lexeme → Prop where
  | done {gap : List Char} (hg : ∀ c ∈ gap, isGap c = true) : SplitsBefore rest gap []
  | next {gap more : List Char} {t : Lexeme} {ts : List Lexeme} (hg : ∀ c ∈ gap, isGap c = true) (ht : IsTerminal t)
    (hl : Longest t (more ++ rest)) (h : SplitsBefore rest more ts) :
    SplitsBefore rest (gap ++ (t.text.toList ++ more)) (t :: ts)

/-- What stands at `rest`: the first of the terminals `r`, or what the scanner stopped at. -/
def Stands (place : Text.Position) (r : Rest) (ending : Ending) (rest : List Char) : Prop :=
  match r, ending with
  | t :: _, _ => t.place = place ∧ IsTerminal t.lexeme ∧ ∃ more, rest = t.lexeme.text.toList ++ more ∧
      Longest t.lexeme more
  | [], .strange c p => p = place ∧ isGap c = false ∧ ∃ more, rest = c :: more ∧ terminal? c more = none
  | [], .complete => rest = []

/-- The scanner finds the terminals `r` where the characters in front of them have been cut into the others. -/
theorem scanFrom_split (place : Text.Position) (cs : List Char) (front r : List Placed)
    (h : (scanFrom place cs).terminals = front ++ r) :
    ∃ pre rest, cs = pre ++ rest ∧ SplitsBefore rest pre (front.map Placed.lexeme) ∧
      Stands (place.after pre) r (scanFrom place cs).ending rest := by
  fun_induction scanFrom place cs generalizing front with
  | case1 place cs hnil =>
    obtain ⟨rfl, rfl⟩ := List.append_eq_nil_iff.1 h.symm
    exact ⟨cs, [], by simp, .done (List.dropWhile_eq_nil_iff.1 hnil), rfl⟩
  | case2 place cs c rest hcons place' hnone =>
    obtain ⟨rfl, rfl⟩ := List.append_eq_nil_iff.1 h.symm
    refine ⟨cs.takeWhile isGap, c :: rest, ?_, .done fun c hc => List.mem_takeWhile_imp hc, rfl,
      head_of_dropWhile hcons, rest, rfl, hnone⟩
    rw [← hcons, List.takeWhile_append_dropWhile]
  | case3 place cs c rest hcons place' t hsome spelling more ih =>
    have hgap : ∀ x ∈ cs.takeWhile isGap, isGap x = true := fun x hx => List.mem_takeWhile_imp hx
    have hcs : cs = cs.takeWhile isGap ++ c :: rest := by rw [← hcons, List.takeWhile_append_dropWhile]
    obtain ⟨ht, behind, hrest, hl⟩ := terminal?_sound hsome
    cases front with
    | nil =>
      obtain rfl : _ = r := h
      exact ⟨cs.takeWhile isGap, c :: rest, hcs, .done hgap, rfl, ht, behind, hrest, hl⟩
    | cons x front =>
      obtain ⟨rfl, hmore⟩ := List.cons.inj h
      -- the scanner goes on behind the terminal
      have hdrop : rest.drop (spelling.length - 1) = behind := by
        obtain ⟨d, ds, hd, -⟩ := ht.cases
        rw [hd, List.cons_append] at hrest
        rw [(List.cons.inj hrest).2]
        simp [spelling, hd]
      obtain ⟨pre, rest', hpre, hsplits, hstands⟩ := ih front hmore
      rw [hdrop] at hpre
      refine ⟨cs.takeWhile isGap ++ (spelling ++ pre), rest', ?_, .next hgap ht (hpre ▸ hl) hsplits, ?_⟩
      · calc cs = cs.takeWhile isGap ++ (spelling ++ behind) := by rw [← hrest]; exact hcs
          _ = cs.takeWhile isGap ++ (spelling ++ pre) ++ rest' := by rw [hpre]; simp
      · rw [Text.Position.after_append, Text.Position.after_append]
        exact hstands

theorem allTerminal_scanFrom (place : Text.Position) (cs : List Char) : AllTerminal (scanFrom place cs).terminals := by
  fun_induction scanFrom place cs with
  | case1 => exact fun t ht => absurd ht List.not_mem_nil
  | case2 => exact fun t ht => absurd ht List.not_mem_nil
  | case3 place cs c rest hcons place' t hsome spelling more ih =>
    exact List.forall_mem_cons.2 ⟨(terminal?_sound hsome).1, ih⟩

/-! ## Faults -/

def Accepted (ts : List Lexeme) : Prop := ∃ (s : String) (t : Node), parse s = .ok t ∧ Splits s.toList ts

def Viable (ts : List Lexeme) : Prop := ∃ us, Accepted us ∧ ts <+: us

/-- What a fault says that lies at `rest`, behind the characters `pre` with the terminals `ts`. -/
def Reports (fault : SyntaxFault) (pre rest : List Char) (ts : List Lexeme) : Prop :=
  match fault.cause with
  | .terminal text => fault.place = .behind pre ∧ ∃ t more, t.text = text ∧ IsTerminal t ∧
      rest = t.text.toList ++ more ∧ Longest t more ∧ ¬ Viable (ts ++ [t])
  | .character c => fault.place = .behind pre ∧ isGap c = false ∧ (∃ more, rest = c :: more) ∧
      ∀ t, IsTerminal t → ¬ t.text.toList <+: rest
  | .endOfText => rest = [] ∧ ¬ Accepted ts ∧ ∃ ts' t pre' more, ts = ts' ++ [t] ∧
      pre = pre' ++ (t.text.toList ++ more) ∧ SplitsBefore (t.text.toList ++ more) pre' ts' ∧ Longest t more ∧
      fault.place = .behind pre'

theorem accepted_iff {ts : List Lexeme} :
    Accepted ts ↔ (∀ t ∈ ts, IsTerminal t) ∧ ∃ d : Derivation .body, d.yield = ts := by
  constructor
  · rintro ⟨s, t, h, hs⟩
    obtain ⟨d, hd, -⟩ := parse_eq_ok_iff.1 h
    exact ⟨hs.isTerminal, d, hd.unique hs⟩
  · rintro ⟨ht, d, rfl⟩
    obtain ⟨s, hs⟩ := d.exists_text ht
    exact ⟨s, _, parse_eq_ok_iff.2 ⟨d, hs, rfl⟩, hs⟩

/-- Where a program fails, the terminals before that are viable. -/
theorem viable_of_error {ts front : List Placed} {r : Rest} (hts : AllTerminal ts) (h : program ts = .error r)
    (hf : ts = front ++ r) : Viable (front.map Placed.lexeme) := by
  obtain ⟨front', hf', d, hp, hd⟩ := fits_program hts h
  obtain rfl : front = front' := List.append_cancel_right (hf.symm.trans hf')
  exact ⟨d.yield, accepted_iff.2 ⟨hd, d, rfl⟩, hp⟩

/-- The terminal at which a program fails cannot follow those before it. -/
theorem not_viable_of_error {ts front r : List Placed} {t : Placed} (h : program ts = .error (t :: r))
    (hf : ts = front ++ t :: r) : ¬ Viable (front.map Placed.lexeme ++ [t.lexeme]) := by
  rintro ⟨us, hacc, w, hw⟩
  obtain ⟨-, d, hd⟩ := accepted_iff.1 hacc
  obtain ⟨front', hf', herror⟩ := program_error h
  obtain rfl : front = front' := List.append_cancel_right (hf.symm.trans hf')
  have hok : program (front ++ t :: w.map fun x => ⟨x, .start⟩) = .ok d.tree := by
    refine program_eq_ok_iff.2 ⟨d, ?_, rfl⟩
    rw [hd, ← hw]
    simp [Function.comp_def]
  cases (herror _).symm.trans hok

theorem not_accepted_of_error {ts : List Placed} {r : Rest} (h : program ts = .error r) :
    ¬ Accepted (ts.map Placed.lexeme) := by
  intro hacc
  obtain ⟨-, d, hd⟩ := accepted_iff.1 hacc
  cases h.symm.trans (program_eq_ok_iff.2 ⟨d, hd, rfl⟩)

theorem reports_terminal {cs pre rest : List Char} {front r : List Placed} {t : Placed}
    (h : program (scan cs).terminals = .error (t :: r)) (hf : (scan cs).terminals = front ++ t :: r)
    (hs : Stands (Text.Position.start.after pre) (t :: r) (scan cs).ending rest) :
    Reports ((scan cs).faultAt (t :: r)) pre rest (front.map Placed.lexeme) := by
  obtain ⟨hplace, ht, more, hrest, hl⟩ := hs
  refine ⟨?_, t.lexeme, more, rfl, ht, hrest, hl, not_viable_of_error h hf⟩
  rw [← Text.Position.start_after]
  exact hplace

theorem reports_character {pre rest : List Char} {c : Char} {place : Text.Position}
    (hs : Stands (Text.Position.start.after pre) [] (.strange c place) rest) (ts : List Lexeme) :
    Reports ⟨.character c, place⟩ pre rest ts := by
  obtain ⟨hplace, hg, more, rfl, hnone⟩ := hs
  refine ⟨?_, hg, ⟨more, rfl⟩, fun t ht hp => ?_⟩
  · rw [← Text.Position.start_after]
    exact hplace
  · have hsome := isSome_terminal? ht hp
    rw [hnone] at hsome
    cases hsome

/-- The end of the text is reported where the last terminal begins. A text without terminals is a program. -/
theorem reports_endOfText {cs : List Char} (h : program (scan cs).terminals = .error [])
    (he : (scan cs).ending = .complete) :
    Reports ((scan cs).faultAt []) cs [] ((scan cs).terminals.map Placed.lexeme) := by
  have hne : (scan cs).terminals ≠ [] := by
    intro hnil
    rw [hnil, program_eq_ok_iff.2 ⟨.body none .noLine, rfl, rfl⟩] at h
    cases h
  obtain ⟨front, t, hf⟩ : ∃ front t, (scan cs).terminals = front ++ [t] :=
    ⟨_, _, (List.dropLast_concat_getLast hne).symm⟩
  obtain ⟨pre, rest, hcs, hsplits, hplace, ht, more, hrest, hl⟩ := scanFrom_split .start cs front [t] hf
  have hfault : (scan cs).faultAt [] = ⟨.endOfText, t.place⟩ := by
    simp [Scanned.faultAt, he, hf]
  rw [hfault]
  refine ⟨rfl, not_accepted_of_error h, front.map Placed.lexeme, t.lexeme, pre, more, ?_, ?_, hrest ▸ hsplits, hl, ?_⟩
  · rw [hf, List.map_append]
    rfl
  · rw [hcs, hrest]
  · rw [← Text.Position.start_after]
    exact hplace

/-- The fault of a text that the strict parser does not accept. The terminals before it begin an accepted text; with
the terminal of the fault behind them they do not, no terminal begins at the character of the fault, and where the text
ends too early, its terminals are no program. The place of the fault is that of the terminal or the character, and for
the end of the text that of the last terminal. -/
theorem parse_error_at_first_fault {s : String} {fault : SyntaxFault} (h : parse s = .error fault) :
    ∃ pre rest ts, s.toList = pre ++ rest ∧ SplitsBefore rest pre ts ∧ Viable ts ∧ Reports fault pre rest ts := by
  have hts : AllTerminal (scan s.toList).terminals := allTerminal_scanFrom _ _
  rw [parse] at h
  split at h
  · cases h
  · next ss c place hp he =>
    -- all terminals fit, and a character follows that begins none
    obtain rfl := Except.error.inj h
    obtain ⟨pre, rest, hcs, hsplits, hstands⟩ := scanFrom_split .start s.toList _ [] (List.append_nil _).symm
    obtain ⟨d, hd, -⟩ := program_eq_ok_iff.1 hp
    have hacc : Accepted ((scan s.toList).terminals.map Placed.lexeme) :=
      accepted_iff.2 ⟨List.forall_mem_map.2 hts, d, hd⟩
    have hfault : (scan s.toList).faultAt [] = ⟨.character c, place⟩ := by simp [Scanned.faultAt, he]
    refine ⟨pre, rest, _, hcs, hsplits, ⟨_, hacc, List.prefix_refl _⟩, ?_⟩
    rw [hfault]
    exact reports_character (he ▸ hstands) _
  · next _ r hp =>
    obtain rfl := Except.error.inj h
    obtain ⟨front, hf, -⟩ := fits_program hts hp
    have hviable := viable_of_error hts hp hf
    obtain ⟨pre, rest, hcs, hsplits, hstands⟩ := scanFrom_split .start s.toList front r hf
    refine ⟨pre, rest, _, hcs, hsplits, hviable, ?_⟩
    cases r with
    | cons t r => exact reports_terminal hp hf hstands
    | nil =>
      rw [List.append_nil] at hf
      cases he : (scan s.toList).ending with
      | strange c place =>
        have hfault : (scan s.toList).faultAt [] = ⟨.character c, place⟩ := by simp [Scanned.faultAt, he]
        rw [hfault]
        exact reports_character (he ▸ hstands) _
      | complete =>
        obtain rfl : rest = [] := by
          have hs : Stands (Text.Position.start.after pre) [] (scan s.toList).ending rest := hstands
          rw [he] at hs
          exact hs
        rw [List.append_nil] at hcs
        rw [← hf, ← hcs]
        exact reports_endOfText hp he

/-- A line end where an operand should stand, behind a line end that spans two lines. -/
theorem parse_error_at_first_fault_operand :
    parse "if (a) \x7b\n\n  b = 1 +\n \x7d" = .error ⟨.terminal "\n ", ⟨3, 10⟩⟩ ∧
    ∃ pre rest ts, "if (a) \x7b\n\n  b = 1 +\n \x7d".toList = pre ++ rest ∧ SplitsBefore rest pre ts ∧ Viable ts ∧
      Reports ⟨.terminal "\n ", ⟨3, 10⟩⟩ pre rest ts := by
  have h : parse "if (a) \x7b\n\n  b = 1 +\n \x7d" = .error ⟨.terminal "\n ", ⟨3, 10⟩⟩ := by cbv
  exact ⟨h, parse_error_at_first_fault h⟩

end Strict

end LineLang
