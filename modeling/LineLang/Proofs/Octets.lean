import LineLang.Text.Octets
import LineLang.Text.Position

/-!
# Texts and their octets

* `front_encodeChar` : the octets of a character are recognised, whatever follows them;
* `decode_encode` : a text is decoded from its octets;
* `IsText`, `IsText.split` : octets that are those of a text, which can be cut at any character below U+0080;
* `IsText.encodeFault?` : they can be printed;
* `unifyLineEnds_eq_self` : the line ends of a text without carriage returns stay as they are.
-/

namespace LineLang.Text

/-! ## Characters of one to four octets -/

theorem front_one {a : Nat} (ha : a < 0x80) (bs : List Nat) : front a bs = .char (Char.ofNat a) 1 := by
  rw [front.eq_def, if_pos ha]

theorem front_two {a b : Nat} (ha : 0xc2 ≤ a) (ha' : a < 0xe0) (hb : isTail b = true) (bs : List Nat) :
    front a (b :: bs) = .char (Char.ofNat ((a - 0xc0) * 64 + (b - 0x80))) 2 := by
  rw [front.eq_def, if_neg (by omega), if_neg (by omega), if_pos ha']
  simp only [if_pos hb]

theorem front_three {a b c : Nat} (ha : 0xe0 ≤ a) (ha' : a < 0xf0) (hb : isSecond a b = true) (hc : isTail c = true)
    (bs : List Nat) :
    front a (b :: c :: bs) = .char (Char.ofNat ((a - 0xe0) * 4096 + (b - 0x80) * 64 + (c - 0x80))) 3 := by
  rw [front.eq_def, if_neg (by omega), if_neg (by omega), if_neg (by omega), if_pos ha']
  simp only [if_pos hb, if_pos hc]

theorem front_four {a b c d : Nat} (ha : 0xf0 ≤ a) (ha' : a < 0xf5) (hb : isSecond a b = true) (hc : isTail c = true)
    (hd : isTail d = true) (bs : List Nat) :
    front a (b :: c :: d :: bs) =
      .char (Char.ofNat ((a - 0xf0) * 262144 + (b - 0x80) * 4096 + (c - 0x80) * 64 + (d - 0x80))) 4 := by
  rw [front.eq_def, if_neg (by omega), if_neg (by omega), if_neg (by omega), if_neg (by omega), if_pos ha']
  simp only [if_pos hb, if_pos hc, if_pos hd]

/-- The numbers of characters: those of surrogates and those beyond U+10FFFF are left out. -/
theorem toNat_valid (c : Char) : c.toNat < 0xd800 ∨ 0xdfff < c.toNat ∧ c.toNat < 0x110000 := c.valid

theorem toNat_octet {n : Nat} (h : n < 256) : (UInt8.ofNat n).toNat = n := by
  rw [UInt8.toNat_ofNat']
  exact Nat.mod_eq_of_lt h

theorem isTail_rest (n : Nat) : isTail (0x80 + n % 64) = true := by
  simp [isTail]
  omega

/-- The octets of a character are recognised. -/
theorem front_encodeChar (c : Char) (bs : List UInt8) :
    ∃ a t, encodeChar c = a :: t ∧ front a.toNat (((t ++ bs).take 3).map UInt8.toNat) = .char c (t.length + 1) := by
  have hvalid := toNat_valid c
  have hchar : ∀ {k : Nat}, k = c.toNat → Char.ofNat k = c := fun h => h ▸ Char.ofNat_toNat c
  have htail : ∀ k, (UInt8.ofNat (0x80 + k % 64)).toNat = 0x80 + k % 64 := fun k => toNat_octet (by omega)
  generalize hn : c.toNat = n at hvalid hchar
  unfold encodeChar
  simp only [hn]
  split
  · refine ⟨_, [], rfl, ?_⟩
    rw [toNat_octet (by omega), front_one (by omega), hchar rfl]
    rfl
  split
  · refine ⟨_, [_], rfl, ?_⟩
    simp only [List.cons_append, List.nil_append, List.take_succ_cons, List.map_cons, htail]
    rw [toNat_octet (by omega), front_two (by omega) (by omega) (isTail_rest _),
      hchar (by rw [show Nat.pow 64 0 = 1 from rfl]; omega)]
    rfl
  split
  · refine ⟨_, [_, _], rfl, ?_⟩
    have hsecond : isSecond (0xe0 + n / 4096) (0x80 + n / Nat.pow 64 1 % 64) = true := by
      rw [show Nat.pow 64 1 = 64 from rfl]
      simp [isSecond, isTail]
      omega
    simp only [List.cons_append, List.nil_append, List.take_succ_cons, List.map_cons, htail]
    rw [toNat_octet (by omega), front_three (by omega) (by omega) hsecond (isTail_rest _),
      hchar (by rw [show Nat.pow 64 0 = 1 from rfl, show Nat.pow 64 1 = 64 from rfl]; omega)]
    rfl
  · refine ⟨_, [_, _, _], rfl, ?_⟩
    have hsecond : isSecond (0xf0 + n / 262144) (0x80 + n / Nat.pow 64 2 % 64) = true := by
      rw [show Nat.pow 64 2 = 4096 from rfl]
      simp [isSecond, isTail]
      omega
    simp only [List.cons_append, List.nil_append, List.take_succ_cons, List.map_cons, htail]
    rw [toNat_octet (by omega), front_four (by omega) (by omega) hsecond (isTail_rest _) (isTail_rest _),
      hchar (by rw [show Nat.pow 64 0 = 1 from rfl, show Nat.pow 64 1 = 64 from rfl,
        show Nat.pow 64 2 = 4096 from rfl]; omega)]
    rfl

/-! ## Texts -/

theorem decodeFrom_encode (s : List Char) : ∀ offset, decodeFrom offset (s.flatMap encodeChar) = .ok s := by
  induction s with
  | nil =>
    intro offset
    rw [List.flatMap_nil, decodeFrom]
  | cons c s ih =>
    intro offset
    obtain ⟨a, t, hc, hfront⟩ := front_encodeChar c (s.flatMap encodeChar)
    rw [List.flatMap_cons, hc, List.cons_append, decodeFrom, hfront]
    simp only [Nat.add_sub_cancel, List.drop_left, ih, bind, Except.bind]
    rfl

/-- A text is decoded from its octets. -/
theorem decode_encode (s : String) : decode (encode s) = .ok s.toList := decodeFrom_encode s.toList 0

theorem encode_append (s t : String) : encode (s ++ t) = encode s ++ encode t := by
  simp only [encode, String.toList_append, List.flatMap_append]

theorem encode_inj {s t : String} (h : encode s = encode t) : s = t := by
  have hdecode := congrArg decode h
  rw [decode_encode, decode_encode] at hdecode
  exact String.toList_inj.1 (Except.ok.inj hdecode)

/-- Every character has an octet. -/
theorem length_le_encode (s : String) : s.length ≤ (encode s).length := by
  rw [encode, ← String.length_toList]
  induction s.toList with
  | nil => exact Nat.le_refl 0
  | cons c cs ih =>
    obtain ⟨a, t, hc, -⟩ := front_encodeChar c []
    rw [List.flatMap_cons, hc, List.length_append, List.length_cons, List.length_cons]
    omega

/-- An octet of a character below U+0080 is all of that character. -/
theorem encodeChar_of_mem {c : Char} {b : UInt8} (hb : b ∈ encodeChar c) (hlow : b < 0x80) : encodeChar c = [b] := by
  have high : ∀ {n : Nat}, 0x80 ≤ n → n < 0x100 → b ≠ UInt8.ofNat n := by
    rintro n hn hn' rfl
    rw [UInt8.lt_iff_toNat_lt, toNat_octet hn'] at hlow
    exact absurd hlow (Nat.not_lt.2 hn)
  have tail : ∀ k, b ≠ UInt8.ofNat (0x80 + k % 64) := fun k => high (by omega) (by omega)
  have hvalid := toNat_valid c
  unfold encodeChar at hb ⊢
  dsimp only at hb ⊢
  split at hb
  · next h => rw [if_pos h, List.mem_singleton.1 hb]
  split at hb
  · have lead := high (show 0x80 ≤ 0xc0 + c.toNat / 64 by omega) (by omega)
    simp only [List.mem_cons, List.not_mem_nil, or_false, tail, lead] at hb
  split at hb
  · have lead := high (show 0x80 ≤ 0xe0 + c.toNat / 4096 by omega) (by omega)
    simp only [List.mem_cons, List.not_mem_nil, or_false, tail, lead] at hb
  · have lead := high (show 0x80 ≤ 0xf0 + c.toNat / 262144 by omega) (by omega)
    simp only [List.mem_cons, List.not_mem_nil, or_false, tail, lead] at hb

theorem slash_mem_encode (s : String) : Octet.slash ∈ encode s ↔ '/' ∈ s.toList := by
  rw [encode, List.mem_flatMap]
  constructor
  · rintro ⟨c, hc, hmem⟩
    have hslash := encodeChar_of_mem hmem (by decide)
    obtain rfl : c = '/' := by
      have := decodeFrom_encode [c] 0
      rw [List.flatMap_singleton, hslash, show [Octet.slash] = ['/'].flatMap encodeChar from rfl,
        decodeFrom_encode] at this
      exact (List.cons.inj (Except.ok.inj this)).1.symm
    exact hc
  · exact fun h => ⟨'/', h, by decide⟩

/-! ## Octets that are text -/

def IsText (o : Octets) : Prop := ∃ s : String, o = encode s

namespace IsText

theorem encode (s : String) : IsText (Text.encode s) := ⟨s, rfl⟩

theorem nil : IsText [] := ⟨"", rfl⟩

theorem append {xs ys : Octets} (hx : IsText xs) (hy : IsText ys) : IsText (xs ++ ys) := by
  obtain ⟨s, rfl⟩ := hx
  obtain ⟨t, rfl⟩ := hy
  exact ⟨s ++ t, (encode_append s t).symm⟩

/-- A text can be cut at a character below U+0080, since its octet is part of no other. -/
theorem split {xs ys : Octets} {b : UInt8} (h : IsText (xs ++ b :: ys)) (hb : b < 0x80) : IsText xs ∧ IsText ys := by
  obtain ⟨s, hs⟩ := h
  rw [Text.encode] at hs
  generalize s.toList = cs at hs
  induction cs generalizing xs with
  | nil => simp at hs
  | cons c cs ih =>
    rw [List.flatMap_cons] at hs
    have hcut : (∃ zs, xs = encodeChar c ++ zs ∧ cs.flatMap encodeChar = zs ++ b :: ys) ∨
        ∃ zs, encodeChar c = xs ++ b :: zs ∧ ys = zs ++ cs.flatMap encodeChar := by
      rcases List.append_eq_append_iff.1 hs with ⟨zs, hc, hrest⟩ | ⟨zs, hx, hrest⟩
      · cases zs with
        | nil => exact .inl ⟨[], by rw [hc, List.append_nil, List.append_nil], hrest.symm⟩
        | cons z zs =>
          obtain ⟨rfl, hys⟩ := List.cons.inj hrest
          exact .inr ⟨zs, hc, hys⟩
      · exact .inl ⟨zs, hx, hrest⟩
    rcases hcut with ⟨zs, rfl, hrest⟩ | ⟨zs, hc, rfl⟩
    · obtain ⟨hzs, hys⟩ := ih hrest.symm
      have hfirst : IsText (encodeChar c) := ⟨String.singleton c, by simp [Text.encode]⟩
      exact ⟨hfirst.append hzs, hys⟩
    · -- the octet is one of the character, and so all of it
      have hall := encodeChar_of_mem (show b ∈ encodeChar c by simp [hc]) hb
      rw [hc] at hall
      obtain ⟨rfl, hzs⟩ := List.append_eq_singleton_iff.1 hall |>.resolve_right (by simp)
      obtain rfl := (List.cons.inj hzs).2
      exact ⟨.nil, String.ofList cs, by rw [Text.encode, String.toList_ofList, List.nil_append]⟩

theorem tail {b : UInt8} {xs : Octets} (h : IsText (b :: xs)) (hb : b < 0x80) : IsText xs :=
  ((show IsText ([] ++ b :: xs) from h).split hb).2

end IsText

theorem signs_encode (cs : List Char) : signs (cs.flatMap encodeChar) = cs.map .char := by
  induction cs with
  | nil => rw [List.flatMap_nil, signs, List.map_nil]
  | cons c cs ih =>
    obtain ⟨a, t, hc, hfront⟩ := front_encodeChar c (cs.flatMap encodeChar)
    rw [List.flatMap_cons, hc, List.cons_append, signs, hfront]
    simp only [Nat.add_sub_cancel, List.drop_left, ih, List.map_cons]

/-- Nothing keeps a text from being printed. -/
theorem IsText.encodeFault? {o : Octets} (h : IsText o) : encodeFault? o = none := by
  obtain ⟨s, rfl⟩ := h
  have hall : (s.toList.map Sign.char).dropWhile Sign.isChar = [] := by
    induction s.toList with
    | nil => rfl
    | cons c cs ih => rw [List.map_cons, List.dropWhile_cons_of_pos rfl, ih]
  rw [Text.encodeFault?, Text.encode, signs_encode, hall]

theorem unifyLineEnds_eq_self : ∀ {cs : List Char}, '\r' ∉ cs → unifyLineEnds cs = cs
  | [], _ => rfl
  | c :: cs, h => by
    rw [List.mem_cons, not_or] at h
    unfold unifyLineEnds
    split
    · next heq => exact absurd heq (List.cons_ne_nil c cs)
    · next heq => exact absurd (List.cons.inj heq).1.symm h.1
    · next heq => exact absurd (List.cons.inj heq).1.symm h.1
    · next heq =>
      obtain ⟨rfl, rfl⟩ := List.cons.inj heq
      rw [unifyLineEnds_eq_self h.2]

end LineLang.Text
