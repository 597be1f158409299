import LineLang.Proofs.FirstFault
import LineLang.Proofs.MaximalMunch

/-!
# Terminals and lexemes of the same text

The scanner of the strict grammar and the one that never fails read every text alike, up to the first character that
the grammar has no terminal for. A line end, with all that belongs to it, stands there for a run of line feeds.

* `mergeLineFeeds` : one line feed in place of each run of them;
* `Strict.asLexeme` : a terminal as a lexeme;
* `Stray t` : a lexeme that is no terminal: a comma, or a character outside the language;
* `Strict.SplitsBefore.cuts` : terminals up to some place are lexemes, cut from the same characters;
* `Strict.SplitsBefore.mergeLineFeeds` : and these are the terminals again, with runs of line feeds merged;
* `stray_scanFrom` : where no terminal begins, there is a stray lexeme of one character;
* `scanners_agree` : how far the strict scanner gets, where it stops, and what it has read then.
-/

namespace LineLang

def mergeLineFeeds : List Lexeme → List Lexeme
  | [] => []
  | t :: ts =>
    if t.kind = .newline ∧ ts.head?.any (·.kind = .newline) then mergeLineFeeds ts else t :: mergeLineFeeds ts

/-- A lexeme that is no terminal of the strict grammar. -/
def Stray (t : Lexeme) : Prop := t.kind = .illegal ∨ t.kind = .comma

namespace Strict

/-- A terminal as a lexeme. Of a line end, one line feed is left. -/
def asLexeme (t : Lexeme) : Lexeme := if t.kind = .newline then ⟨.newline, "\n"⟩ else t

variable {rest rest' cs : List Char} {ts : List Lexeme} {t : Lexeme}

/-! ## Terminals up to a place -/

theorem Longest.mono (hl : Longest t rest) (h : rest' <+: rest) : Longest t rest' :=
  fun u hu hpre => hl u hu (hpre.trans ((List.prefix_append_right_inj _).2 h))

theorem SplitsBefore.mono (hs : SplitsBefore rest cs ts) (h : rest' <+: rest) : SplitsBefore rest' cs ts := by
  induction hs with
  | done hg => exact .done hg
  | next hg ht hl _ ih => exact .next hg ht (hl.mono ((List.prefix_append_right_inj _).2 h)) ih

theorem Splits.before (h : Splits cs ts) : SplitsBefore [] cs ts := by
  induction h with
  | done hg => exact .done hg
  | next hg ht hl _ ih => exact .next hg ht (by rwa [List.append_nil]) ih

theorem IsTerminal.nul_not_mem (ht : IsTerminal t) : nul ∉ t.text.toList := by
  have hsymbols : symbols.all (fun p => !p.1.contains nul) = true := by decide
  obtain ⟨c, cs, hc, h⟩ := ht.cases
  rw [hc]
  intro hmem
  rcases h with ⟨hl, hcs, -⟩ | ⟨hd, hcs, -⟩ | ⟨rfl, hcs, -⟩ | hs
  · cases List.forall_mem_cons (p := fun x => isLetter x = true) |>.2 ⟨hl, hcs⟩ nul hmem
  · cases List.forall_mem_cons (p := fun x => isDigit x = true) |>.2 ⟨hd, hcs⟩ nul hmem
  · cases List.forall_mem_cons (p := fun x => isLayout x = true) |>.2 ⟨rfl, hcs⟩ nul hmem
  · have h := List.all_eq_true.1 hsymbols _ hs
    simp [hmem] at h

theorem SplitsBefore.nul_not_mem (hs : SplitsBefore rest cs ts) : nul ∉ cs := by
  have hgap : ∀ {gap : List Char}, (∀ c ∈ gap, isGap c = true) → nul ∉ gap := fun hg h => by cases hg nul h
  induction hs with
  | done hg => exact hgap hg
  | next hg ht _ _ ih =>
    rw [List.mem_append, List.mem_append]
    rintro (h | h | h)
    · exact hgap hg h
    · exact ht.nul_not_mem h
    · exact ih h

/-- What follows a line end does not begin with another one. -/
theorem SplitsBefore.head_of_lineEnd (ht : IsTerminal t) (hn : t.kind = .newline) (hl : Longest t (cs ++ rest))
    (hs : SplitsBefore rest cs ts) : ∀ u ∈ ts.head?, u.kind ≠ .newline := by
  cases hs with
  | done _ => exact fun u hu => nomatch hu
  | @next gap more u ts hg hu _ _ =>
    intro v hv hvn
    obtain rfl : u = v := Option.some.inj hv
    rw [IsTerminal, hn] at ht
    obtain ⟨tail, htext, htail⟩ := ht
    rw [IsTerminal, hvn] at hu
    obtain ⟨tail', htext', -⟩ := hu
    -- with the first line feed of the other one, it would be a longer line end
    have hlong := hl ⟨.newline, String.ofList ('\n' :: (tail ++ (gap ++ ['\n'])))⟩ ?_ ?_
    · rw [String.toList_ofList, htext] at hlong
      simp only [List.length_cons, List.length_append] at hlong
      omega
    · refine ⟨_, String.toList_ofList, fun c hc => ?_⟩
      rcases List.mem_append.1 hc with hc | hc
      · exact htail c hc
      · rcases List.mem_append.1 hc with hc | hc
        · exact .inr (hg c hc)
        · exact .inl (List.mem_singleton.1 hc)
    · rw [String.toList_ofList, htext, htext']
      exact ⟨tail' ++ (more ++ rest), by simp⟩

/-! ## Runs of line feeds -/

theorem head_pieces (h : ∀ u ∈ ts.head?, u.kind ≠ .newline) : ∀ u ∈ (ts.flatMap pieces).head?, u.kind ≠ .newline := by
  cases ts with
  | nil => exact h
  | cons t ts =>
    have ht := h t rfl
    rw [List.flatMap_cons, pieces_of_ne ht]
    exact fun u hu => Option.some.inj hu ▸ ht

end Strict

theorem mergeLineFeeds_of_ne {t : Lexeme} (h : t.kind ≠ .newline) (ts : List Lexeme) :
    mergeLineFeeds (t :: ts) = t :: mergeLineFeeds ts := by
  rw [mergeLineFeeds, if_neg fun h' => h h'.1]

theorem mergeLineFeeds_replicate {ts : List Lexeme} (h : ∀ u ∈ ts.head?, u.kind ≠ .newline) (n : Nat) :
    mergeLineFeeds (List.replicate (n + 1) ⟨.newline, "\n"⟩ ++ ts) = ⟨.newline, "\n"⟩ :: mergeLineFeeds ts := by
  induction n with
  | zero =>
    have hts : ts.head?.any (·.kind = .newline) = false := by
      rw [Option.any_eq_false]
      simpa using h
    show mergeLineFeeds (_ :: ts) = _
    rw [mergeLineFeeds, if_neg (by simp [hts])]
  | succ n ih =>
    rw [List.replicate_succ, List.cons_append, mergeLineFeeds, if_pos ⟨rfl, by simp [List.replicate_succ]⟩, ih]

namespace Strict

variable {rest cs before : List Char} {ts : List Lexeme} {t : Lexeme}

/-- The lexemes of some terminals are the terminals again, with runs of line feeds merged. -/
theorem SplitsBefore.mergeLineFeeds (hs : SplitsBefore rest cs ts) :
    mergeLineFeeds (ts.flatMap pieces) = ts.map asLexeme := by
  induction hs with
  | done _ => rfl
  | @next gap more t ts hg ht hl hmore ih =>
    rw [List.flatMap_cons, List.map_cons, ← ih]
    by_cases hn : t.kind = .newline
    · obtain ⟨n, hp⟩ := pieces_lineEnd ht hn
      rw [hp, mergeLineFeeds_replicate (head_pieces (hmore.head_of_lineEnd ht hn hl)), asLexeme, if_pos hn]
    · rw [pieces_of_ne hn, List.singleton_append, mergeLineFeeds_of_ne hn, asLexeme, if_neg hn]

theorem SplitsBefore.not_stray (hs : SplitsBefore rest cs ts) : ∀ t ∈ ts.flatMap pieces, ¬ Stray t := by
  have stray : ∀ {t}, IsTerminal t → ¬ Stray t := by
    rintro t ht (hk | hk) <;> · rw [IsTerminal, hk] at ht; exact ht
  induction hs with
  | done _ => exact fun t ht => absurd ht List.not_mem_nil
  | @next gap more t ts hg ht hl hmore ih =>
    rw [List.flatMap_cons]
    refine List.forall_mem_append.2 ⟨?_, ih⟩
    by_cases hn : t.kind = .newline
    · obtain ⟨n, hp⟩ := pieces_lineEnd ht hn
      intro u hu
      rw [hp] at hu
      rw [List.eq_of_mem_replicate hu]
      rintro (h | h) <;> cases h
    · rw [pieces_of_ne hn]
      exact List.forall_mem_singleton.2 (stray ht)

end Strict

/-! ## Lexemes up to a place -/

theorem munched_newline (before behind : List Char) : Munched before ⟨.newline, "\n"⟩ behind :=
  .single rfl rfl rfl rfl (fun d _ => (single?_spec (c := '\n') rfl).2 d) rfl

/-- The line feeds of a line end. -/
theorem Cuts.layout {before w cs behind : List Char} {ts : List Lexeme} (hw : ∀ c ∈ w, Strict.isLayout c = true)
    (h : Cuts (before ++ w) cs behind ts) :
    Cuts before (w ++ cs) behind (List.replicate (w.count '\n') ⟨.newline, "\n"⟩ ++ ts) := by
  induction w generalizing before with
  | nil => simpa using h
  | cons c w ih =>
    obtain ⟨hc, hw⟩ := List.forall_mem_cons.1 hw
    have hmore : Cuts (before ++ [c]) (w ++ cs) behind _ := ih hw (by simpa using h)
    by_cases hn : c = '\n'
    · subst hn
      rw [List.count_cons_self, List.replicate_succ]
      exact .lexeme (munched_newline _ _) hmore
    · have hg : ∀ x ∈ [c], isGap x = true := by simpa [Strict.isLayout, hn] using hc
      rw [List.count_cons_of_ne hn, List.cons_append, ← List.singleton_append]
      exact .blanks hg hmore

theorem Munches.append {before behind : List Char} {xs ys : List (Lexeme × List Char)}
    (hx : Munches before xs (joined ys ++ behind)) (hy : Munches (before ++ joined xs) ys behind) :
    Munches before (xs ++ ys) behind := by
  induction xs generalizing before with
  | nil => simpa [joined] using hy
  | cons p xs ih =>
    obtain ⟨t, gap⟩ := p
    obtain ⟨hg, ht, hx⟩ := hx
    rw [List.cons_append]
    refine ⟨hg, ?_, ih hx ?_⟩
    · rwa [joined_append, List.append_assoc]
    · rw [joined_cons] at hy
      simpa using hy

namespace Strict

variable {rest cs before : List Char} {ts : List Lexeme} {t : Lexeme}

/-- The terminals up to some place are lexemes there. -/
theorem SplitsBefore.cuts (hs : SplitsBefore rest cs ts) (hb : Parted before (cs ++ rest)) :
    Cuts before cs rest (ts.flatMap pieces) := by
  induction hs generalizing before with
  | @done gap hg =>
    rw [← List.append_nil gap]
    exact .blanks hg .nil
  | @next gap more t ts hg ht hl hmore ih =>
    rw [List.append_assoc, List.append_assoc] at hb
    have hparted := hb.blanks hg
    rw [List.flatMap_cons]
    refine .blanks hg ?_
    by_cases hn : t.kind = .newline
    · -- a line end is cut into its line feeds, and no word or number goes on behind them
      obtain ⟨c, tail, hc, -⟩ := ht.cases
      have hw : ∀ x ∈ t.text.toList, isLayout x = true := by
        rw [IsTerminal, hn] at ht
        obtain ⟨tail, htext, htail⟩ := ht
        rw [htext]
        exact List.forall_mem_cons.2 ⟨rfl, fun x hx => by simpa [isLayout] using htail x hx⟩
      rw [pieces, if_pos hn]
      refine .layout hw (ih fun a ha b _ => ?_)
      have ha := hw a (mem_of_getLast?_append (by simp [hc]) ha)
      rw [isLayout, Bool.or_eq_true, decide_eq_true_eq] at ha
      rcases ha with rfl | ha
      · exact ⟨fun _ => rfl, fun _ => rfl⟩
      · exact ⟨fun _ => (not_run_of_gap ha).1, fun _ => (not_run_of_gap ha).2⟩
    · obtain ⟨c, cs, hc, hgap, -, hsome, hdrop⟩ := terminal?_append ht hl
      have hscan : LineLang.scanFrom c cs = (t, more ++ rest) := hdrop ▸ scanFrom_of_terminal? hsome hn
      rw [hc] at hparted
      obtain ⟨hm, -⟩ := munched_scanFrom hgap hparted
      rw [hscan] at hm
      rw [pieces_of_ne hn]
      exact .lexeme hm (ih hm.parted)

theorem of_terminal?_none {c : Char} (h : terminal? c cs = none) : isLetter c = false ∧ isDigit c = false := by
  unfold terminal? at h
  split at h
  · cases h
  · split at h
    · cases h
    · next hl hd => exact ⟨by simpa using hl, by simpa using hd⟩

theorem terminal?_none_mono {c : Char} {cs' : List Char} (h : terminal? c cs = none) (hp : cs' <+: cs) :
    terminal? c cs' = none := by
  cases h' : terminal? c cs' with
  | none => rfl
  | some t =>
    obtain ⟨ht, rest, hrest, -⟩ := terminal?_sound h'
    have hpre : t.text.toList <+: c :: cs' := ⟨rest, hrest.symm⟩
    have hsome := isSome_terminal? ht (hpre.trans (List.cons_prefix_cons.2 ⟨rfl, hp⟩))
    rw [h] at hsome
    cases hsome

end Strict

theorem not_stray_of_lookup {p : Char × Char} {k : Kind} {text : String} (h : pairKinds.lookup p = some k) :
    ¬ Stray ⟨k, text⟩ := by
  have table : ∀ p ∈ pairKinds, p.2 ≠ .illegal ∧ p.2 ≠ .comma := by decide
  obtain ⟨l₁, l₂, hl, -⟩ := List.lookup_eq_some_iff.1 h
  obtain ⟨hi, hc⟩ := table (p, k) (by rw [hl]; simp)
  rintro (hk | hk)
  · exact hi hk
  · exact hc hk

/-- Where no terminal begins, there is a stray lexeme of one character. -/
theorem stray_scanFrom {c : Char} {cs : List Char} (h : Strict.terminal? c cs = none) (hg : isGap c = false) :
    ∃ t, scanFrom c cs = (t, cs) ∧ Stray t ∧ t.text = String.singleton c := by
  obtain ⟨hl, hd⟩ := Strict.of_terminal?_none h
  have hstart : Parted [] (c :: cs) := fun a ha => nomatch ha
  obtain ⟨hm, htext⟩ := munched_scanFrom hg hstart
  have hstray : Stray (scanFrom c cs).1 := by
    by_contra hn
    have hterm := Tolerant.spelt_scanFrom c cs fun hk => hn (by simpa [Stray, or_comm] using hk)
    have hsome := Strict.isSome_terminal? hterm ⟨_, htext⟩
    rw [h] at hsome
    cases hsome
  cases hm with
  | word hne hletters _ hbehind _ => cases hl.symm.trans (run_append hne hletters hbehind htext).1
  | number hne hdigits _ hbehind _ => cases hd.symm.trans (run_append hne hdigits hbehind htext).1
  | pair _ hk => exact absurd hstray (not_stray_of_lookup hk)
  | @single x hx _ _ _ _ _ =>
    rw [hx] at htext
    obtain ⟨rfl, hcs⟩ : x = c ∧ (scanFrom c cs).2 = cs := List.cons.inj htext
    refine ⟨(scanFrom x cs).1, Prod.ext rfl hcs, hstray, ?_⟩
    rw [String.singleton_eq_ofList, ← hx, String.ofList_toList]

/-- Where the strict scanner stops at the character `x`, having read the terminals `ts` of the text `cs`: in the cutting
of the text `place` is that of its first stray lexeme, which is `x`, or that of the NUL behind its last lexeme. The
terminals are the lexemes in front of it. -/
def StopsAt (cs : List Char) (ts : List Lexeme) (x : Char) (place : Text.Position) : Prop :=
  ∃ c : Cutting, c.text = cs.takeWhile (· ≠ nul) ∧ c.MaximalMunch ∧ ∃ xs ys, c.parts = xs ++ ys ∧
    (∀ p ∈ xs, ¬ Stray p.1) ∧ ts.map Strict.asLexeme = mergeLineFeeds (xs.map Prod.fst) ∧
    place = .behind (c.front ++ joined xs) ∧
    ((∃ t gap more, ys = (t, gap) :: more ∧ Stray t ∧ t.text = String.singleton x) ∨
      (ys = [] ∧ x = nul ∧ nul ∈ cs))

/-- The lexemes of the terminals, with what is cut behind them. -/
theorem stopsAt_of_parts {cs pre rest : List Char} {ts : List Lexeme} {x : Char} (ys : List (Lexeme × List Char))
    (hs : Strict.SplitsBefore rest pre ts) (hu : cs.takeWhile (· ≠ nul) = pre ++ joined ys) (hp : joined ys <+: rest)
    (hy : Munches pre ys []) (hx : (∃ t gap more, ys = (t, gap) :: more ∧ Stray t ∧ t.text = String.singleton x) ∨
      (ys = [] ∧ x = nul ∧ nul ∈ cs)) : StopsAt cs ts x (.behind pre) := by
  have hstart : Parted [] (pre ++ joined ys) := fun a ha => nomatch ha
  obtain ⟨c, htext, hlex, hfront, hmunch⟩ := (hs.mono hp).cuts hstart
  refine ⟨⟨c.front, c.parts ++ ys⟩, ?_, ⟨hfront, Munches.append ?_ ?_⟩, c.parts, ys, rfl, ?_, ?_, ?_, hx⟩
  · rw [hu, ← htext, Cutting.text, Cutting.text, joined_append, List.append_assoc]
  · rw [List.append_nil]
    exact hmunch
  · rw [← htext] at hy
    exact hy
  · have hplain := hs.not_stray
    rw [← hlex] at hplain
    exact fun p hp => hplain p.1 (List.mem_map_of_mem hp)
  · rw [← hs.mergeLineFeeds, ← hlex]
    rfl
  · rw [← htext]
    rfl

/-- The strict scanner stops at a NUL or at a stray lexeme. -/
theorem stopsAt_of_stands {pre rest : List Char} {ts : List Lexeme} {x : Char} {place : Text.Position}
    (hs : Strict.SplitsBefore rest pre ts)
    (h : Strict.Stands (Text.Position.start.after pre) [] (.strange x place) rest) :
    StopsAt (pre ++ rest) ts x place := by
  obtain ⟨rfl, hg, more, rfl, hnone⟩ := h
  rw [Text.Position.start_after]
  have htake : ∀ y ∈ pre, decide (y ≠ nul) = true := fun y hy => decide_eq_true fun h => hs.nul_not_mem (h ▸ hy)
  by_cases h0 : x = nul
  · -- a NUL ends the cutting behind the last terminal
    subst h0
    refine stopsAt_of_parts [] hs ?_ List.nil_prefix trivial (.inr ⟨rfl, rfl, by simp⟩)
    rw [Strict.takeWhile_run htake (by simp)]
    exact (List.append_nil pre).symm
  · -- what stands between the stray lexeme and the first NUL is cut too
    have hprefix : more.takeWhile (· ≠ nul) <+: more := List.takeWhile_prefix _
    obtain ⟨hl, hd⟩ := Strict.of_terminal?_none hnone
    obtain ⟨t, hscan, ht, htext⟩ := stray_scanFrom (Strict.terminal?_none_mono hnone hprefix) hg
    have hparted : Parted pre (x :: more.takeWhile (· ≠ nul)) := by
      intro a _ b hb
      obtain rfl := Option.some.inj hb
      simp [hl, hd]
    obtain ⟨hm, -⟩ := munched_scanFrom hg hparted
    rw [hscan] at hm
    obtain ⟨⟨gap, parts⟩, hjoined, -, hgap, hmunch⟩ := cuts_lexemes _ _ (nul_not_mem_takeWhile more) hm.parted
    have hys : joined ((t, gap) :: parts) = x :: more.takeWhile (· ≠ nul) := by
      rw [joined_cons, htext, ← hjoined]
      simp [Cutting.text]
    refine stopsAt_of_parts ((t, gap) :: parts) hs ?_ ?_ ⟨hgap, ?_, ?_⟩ (.inl ⟨t, gap, parts, rfl, ht, htext⟩)
    · rw [hys, List.takeWhile_append_of_pos htake, List.takeWhile_cons_of_pos (by simpa using h0)]
    · rw [hys]
      exact List.cons_prefix_cons.2 ⟨rfl, hprefix⟩
    · rw [← hjoined] at hm
      rw [List.append_nil]
      exact hm
    · rw [← List.append_assoc]
      exact hmunch

theorem StopsAt.stray {cs : List Char} {ts : List Lexeme} {x : Char} {place : Text.Position}
    (h : StopsAt cs ts x place) : nul ∈ cs ∨ ∃ t ∈ lexemes cs, Stray t := by
  obtain ⟨c, htext, hmax, xs, ys, hparts, -, -, -, hx⟩ := h
  rcases hx with ⟨t, gap, more, rfl, ht, -⟩ | ⟨-, -, h0⟩
  · refine .inr ⟨t, ?_, ht⟩
    rw [← lexemes_takeWhile, ← htext, ← hmax.lexemes_eq, Cutting.lexemes, hparts]
    · simp
    · rw [htext]
      exact nul_not_mem_takeWhile cs
  · exact .inl h0

/-- The strict scanner reads a whole text if it has no NUL and no stray lexeme. Its terminals are then the lexemes, with
each run of line feeds merged. On other texts it stops at the first stray lexeme or, if that comes first, at the first
NUL, and the terminals before that are the lexemes before it in the same way. -/
theorem scanners_agree (s : String) :
    ((Strict.scan s.toList).ending = .complete ↔ nul ∉ s.toList ∧ ∀ t ∈ lexemes s.toList, ¬ Stray t) ∧
    ((Strict.scan s.toList).ending = .complete →
      ((Strict.scan s.toList).terminals.map Strict.Placed.lexeme).map Strict.asLexeme =
        mergeLineFeeds (lexemes s.toList)) ∧
    ∀ x place, (Strict.scan s.toList).ending = .strange x place →
      StopsAt s.toList ((Strict.scan s.toList).terminals.map Strict.Placed.lexeme) x place := by
  obtain ⟨pre, rest, hcs, hsplits, hstands⟩ :=
    Strict.scanFrom_split .start s.toList (Strict.scan s.toList).terminals [] (List.append_nil _).symm
  have hstops : ∀ x place, (Strict.scan s.toList).ending = .strange x place →
      StopsAt s.toList ((Strict.scan s.toList).terminals.map Strict.Placed.lexeme) x place := by
    intro x place he
    have h := stopsAt_of_stands hsplits (he ▸ hstands)
    rwa [← hcs] at h
  have hlexemes : (Strict.scan s.toList).ending = .complete →
      lexemes s.toList = ((Strict.scan s.toList).terminals.map Strict.Placed.lexeme).flatMap Strict.pieces :=
    fun he => Strict.lexemes_of_splits (Strict.splits_of_scan he)
  refine ⟨⟨fun he => ?_, fun ⟨h0, hplain⟩ => ?_⟩, fun he => ?_, hstops⟩
  · obtain rfl : rest = [] := by
      have h : Strict.Stands _ [] (Strict.scan s.toList).ending rest := hstands
      rwa [he] at h
    rw [List.append_nil] at hcs
    rw [hlexemes he]
    exact ⟨hcs ▸ hsplits.nul_not_mem, hsplits.not_stray⟩
  · cases he : (Strict.scan s.toList).ending with
    | complete => rfl
    | strange x place =>
      rcases (hstops x place he).stray with h | ⟨t, ht, h⟩
      · exact absurd h h0
      · exact absurd h (hplain t ht)
  · rw [hlexemes he, hsplits.mergeLineFeeds]

end LineLang
