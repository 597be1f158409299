import Mathlib
import LineLang.Proofs.MaximalMunch

/-!
# Blanks between lexemes

How many blanks stand between two lexemes does not matter, as long as there is one. So the lexemes of a text can be
written out with blanks of any kind and number between them, and are read again. That holds for every text, also where
lexemes stand for nothing in the language, or would make another lexeme if they stood side by side.

* `Munched.between_blanks` : between blanks, a lexeme that was found somewhere is as long as it can be;
* `exists_munched` : each lexeme of a text was found somewhere;
* `Cutting.Spaced` : a text in pieces with blanks between any two lexemes, and perhaps at its ends;
* `Cutting.Spaced.maximalMunch` : it is cut as the scanner cuts it;
* `parse_spaced` : it has the same lexemes, and the same tree.
-/

namespace LineLang

variable {before behind : List Char} {t : Lexeme} {parts : List (Lexeme × List Char)}

/-! ## One lexeme -/

theorem breaks_gap {x : Char} (hx : isGap x = true) : Breaks x := by
  obtain ⟨hl, hd⟩ := not_run_of_gap hx
  refine breaks_of_not_mem hl hd fun p hp h => ?_
  have second : pairKinds.all (fun p => !isGap p.1.2) = true := by decide
  have hsolid := List.all_eq_true.1 second p hp
  rw [h, hx] at hsolid
  cases hsolid

/-- A lexeme that is as long as it can be somewhere is so between blanks, and at the ends of a text. -/
theorem Munched.between_blanks {before' behind' : List Char} (h : Munched before t behind)
    (hbefore : ∀ c ∈ before'.getLast?, isGap c = true) (hbehind : ∀ c ∈ behind'.head?, isGap c = true) :
    Munched before' t behind' := by
  cases h with
  | word hne hl _ _ hk =>
    exact .word hne hl (fun c hc => (not_run_of_gap (hbefore c hc)).1) (fun c hc => (not_run_of_gap (hbehind c hc)).1)
      hk
  | number hne hd _ _ hk =>
    exact .number hne hd (fun c hc => (not_run_of_gap (hbefore c hc)).2) (fun c hc => (not_run_of_gap (hbehind c hc)).2)
      hk
  | pair hab hk => exact .pair hab hk
  | single hx hl hd hg _ hk =>
    -- whatever the character stood in front of, it makes no operator with a blank
    exact .single hx hl hd hg (fun c hc => (breaks_gap (hbehind c hc)).2.2 _) hk

theorem Munches.exists_munched (h : Munches before parts behind) :
    ∀ p ∈ parts, ∃ before' behind', Munched before' p.1 behind' := by
  induction parts generalizing before with
  | nil => exact List.forall_mem_nil _
  | cons p more ih =>
    obtain ⟨-, ht, hmore⟩ := h
    exact List.forall_mem_cons.2 ⟨⟨_, _, ht⟩, ih hmore⟩

/-- Each lexeme of a text is as long as it can be where it stands, and holds no NUL. -/
theorem exists_munched {cs : List Char} (ht : t ∈ lexemes cs) :
    (∃ before behind, Munched before t behind) ∧ nul ∉ t.text.toList := by
  have h0 := nul_not_mem_takeWhile cs
  rw [← lexemes_takeWhile] at ht
  refine ⟨?_, fun hnul => h0 (subset_of_mem_lexemes h0 ht nul hnul)⟩
  obtain ⟨c, -, hlex, -, hmunch⟩ := cuts_lexemes [] _ h0 fun a ha => by cases ha
  rw [← hlex, Cutting.lexemes] at ht
  obtain ⟨p, hp, rfl⟩ := List.mem_map.1 ht
  exact hmunch.exists_munched p hp

/-! ## Lexemes with blanks between them -/

/-- Blanks stand between any two of the lexemes, and perhaps in front of the first and behind the last one. -/
structure Cutting.Spaced (c : Cutting) : Prop where
  front : ∀ x ∈ c.front, isGap x = true
  gaps : ∀ p ∈ c.parts, ∀ x ∈ p.2, isGap x = true
  apart : ∀ p ∈ c.parts.dropLast, p.2 ≠ []

theorem isGap_of_getLast? {gap : List Char} (hg : ∀ c ∈ gap, isGap c = true) : ∀ c ∈ gap.getLast?, isGap c = true :=
  fun c hc => hg c (List.mem_of_getLast? hc)

/-- Lexemes that are each as long as it can be somewhere are so together, with blanks between any two of them. -/
theorem munches_of_gaps (hbefore : ∀ c ∈ before.getLast?, isGap c = true)
    (hfound : ∀ p ∈ parts, ∃ before' behind', Munched before' p.1 behind')
    (hgaps : ∀ p ∈ parts, ∀ c ∈ p.2, isGap c = true) (hapart : ∀ p ∈ parts.dropLast, p.2 ≠ []) :
    Munches before parts [] := by
  induction parts generalizing before with
  | nil => trivial
  | cons p more ih =>
    obtain ⟨t, gap⟩ := p
    obtain ⟨⟨_, _, ht⟩, hfoundMore⟩ := List.forall_mem_cons.1 hfound
    obtain ⟨hgap, hgapsMore⟩ := List.forall_mem_cons.1 hgaps
    cases more with
    | nil =>
      refine ⟨hgap, ht.between_blanks hbefore fun c hc => hgap c ?_, trivial⟩
      rw [show gap ++ (joined [] ++ []) = gap from List.append_nil gap] at hc
      exact List.mem_of_head? hc
    | cons q more =>
      rw [List.dropLast_cons_cons] at hapart
      obtain ⟨hne, hapartMore⟩ := List.forall_mem_cons.1 hapart
      -- the blanks behind the lexeme are what stands behind it, and in front of the next one
      obtain ⟨x, xs, rfl⟩ := List.exists_cons_of_ne_nil hne
      refine ⟨hgap, ht.between_blanks hbefore fun c hc => ?_, ih (fun c hc => ?_) hfoundMore hgapsMore hapartMore⟩
      · rw [← Option.some.inj hc]
        exact hgap x List.mem_cons_self
      · rw [← List.append_assoc] at hc
        exact hgap c (mem_of_getLast?_append hne hc)

theorem mem_joined {x : Char} : x ∈ joined parts ↔ ∃ p ∈ parts, x ∈ p.1.text.toList ∨ x ∈ p.2 := by
  simp only [joined, List.mem_flatMap, List.mem_append]

namespace Cutting.Spaced

variable {c : Cutting} {s : String}

theorem mem_lexemes (hlex : c.lexemes = LineLang.lexemes s.toList) {p : Lexeme × List Char} (hp : p ∈ c.parts) :
    p.1 ∈ LineLang.lexemes s.toList :=
  hlex ▸ List.mem_map_of_mem hp

theorem maximalMunch (h : c.Spaced) (hlex : c.lexemes = LineLang.lexemes s.toList) : c.MaximalMunch :=
  ⟨h.front, munches_of_gaps (isGap_of_getLast? h.front) (fun _ hp => (exists_munched (mem_lexemes hlex hp)).1) h.gaps
    h.apart⟩

theorem nul_not_mem (h : c.Spaced) (hlex : c.lexemes = LineLang.lexemes s.toList) : nul ∉ c.text := by
  have solid : ¬ isGap nul = true := by decide
  intro hnul
  rcases List.mem_append.1 hnul with hfront | hjoined
  · exact solid (h.front nul hfront)
  · obtain ⟨p, hp, htext | hgap⟩ := mem_joined.1 hjoined
    · exact (exists_munched (mem_lexemes hlex hp)).2 htext
    · exact solid (h.gaps p hp nul hgap)

theorem lexemes_eq (h : c.Spaced) (hlex : c.lexemes = LineLang.lexemes s.toList) :
    LineLang.lexemes c.text = LineLang.lexemes s.toList := by
  rw [← (h.maximalMunch hlex).lexemes_eq (h.nul_not_mem hlex), hlex]

end Cutting.Spaced

/-- Where the lexemes of a text are written out with blanks between any two of them, and perhaps at both ends, reading
gives the same lexemes again, then the end of the text, and parsing gives the same tree with the same tokens. -/
theorem parse_spaced (s : String) (c : Cutting) (hlex : c.lexemes = lexemes s.toList) (hc : c.Spaced) :
    lexemes c.text = lexemes s.toList ∧
    (∃ last, (Cursor.start s).ReadsAll (c.lexemes ++ [.eof]) last) ∧
    (∃ last, (Cursor.start (String.ofList c.text)).ReadsAll (c.lexemes ++ [.eof]) last) ∧
    Tolerant.parse (String.ofList c.text) = Tolerant.parse s := by
  have heq := hc.lexemes_eq hlex
  have hspaced : lexemes (Cursor.start (String.ofList c.text)).rest = c.lexemes := by
    rw [Cursor.start, String.toList_ofList, heq, hlex]
  obtain ⟨last, hreads, -⟩ := Cursor.readsAll (c := Cursor.start s) hlex.symm
  obtain ⟨last', hreads', -⟩ := Cursor.readsAll hspaced
  refine ⟨heq, ⟨last, hreads⟩, ⟨last', hreads'⟩, ?_⟩
  rw [Tolerant.parse, Tolerant.parse, String.toList_ofList, heq]

/-- In `! ===1a`, a character that stands for nothing, an equality and an assignment sign, a number and a name. -/
def touching : Cutting :=
  ⟨['\t'], [(⟨.illegal, "!"⟩, ['\t', ' ']), (⟨.equal, "=="⟩, [' ']), (⟨.assign, "="⟩, ['\t']),
    (⟨.num, "1"⟩, [' ', ' ']), (⟨.ident, "a"⟩, [])]⟩

theorem parse_spaced_touching :
    touching.lexemes = lexemes "! ===1a".toList ∧ touching.Spaced ∧
    lexemes "\t!\t == =\t1  a".toList = lexemes "! ===1a".toList ∧
    Tolerant.parse "\t!\t == =\t1  a" = Tolerant.parse "! ===1a" := by
  have hlex : touching.lexemes = lexemes "! ===1a".toList := by cbv
  have hspaced : touching.Spaced :=
    ⟨List.all_eq_true.1 (by decide), fun p hp => List.all_eq_true.1 (List.all_eq_true.1
      (show touching.parts.all (fun p => p.2.all isGap) = true by decide) p hp), by simp [touching]⟩
  obtain ⟨hl, -, -, hparse⟩ := parse_spaced "! ===1a" touching hlex hspaced
  exact ⟨hlex, hspaced, hl, hparse⟩

end LineLang
