/-!
# Signed 64-bit arithmetic

* `wrap n` : the signed 64-bit number congruent to `n`;
* `InRange n` : `n` is such a number, with `wrap_inRange`, `wrap_of_inRange`, `wrap_wrap`;
* `quotient? a b`, `remainder? a b` : division toward zero on unbounded integers, refused for a divisor of zero;
* `quotient?_eq`, `remainder?_eq` : the quotient by magnitudes and signs, and the remainder by the quotient.
-/

namespace LineLang.Word

def least : Int := -9223372036854775808

def greatest : Int := 9223372036854775807

/-- The signed 64-bit number with the same low 64 bits. -/
def wrap (n : Int) : Int := (n + 9223372036854775808) % 18446744073709551616 - 9223372036854775808

def InRange (n : Int) : Prop := least ≤ n ∧ n ≤ greatest

instance (n : Int) : Decidable (InRange n) := inferInstanceAs (Decidable (_ ∧ _))

theorem wrap_inRange (n : Int) : InRange (wrap n) := by
  unfold InRange wrap least greatest; omega

theorem wrap_of_inRange {n : Int} (h : InRange n) : wrap n = n := by
  unfold InRange least greatest at h; unfold wrap; omega

@[simp] theorem wrap_wrap (n : Int) : wrap (wrap n) = wrap n :=
  wrap_of_inRange (wrap_inRange n)

/-- The quotient rounded toward zero. -/
def quotient? (a b : Int) : Option Int := if b = 0 then none else some (a.tdiv b)

/-- The remainder, with the sign of the dividend. -/
def remainder? (a b : Int) : Option Int := if b = 0 then none else some (a.tmod b)

/-- The quotient of the magnitudes, negated if the numbers differ in sign. -/
theorem quotient?_eq (a b : Int) : quotient? a b =
    if b = 0 then none
    else some (if (a < 0 ↔ b < 0) then ↑(a.natAbs / b.natAbs) else -↑(a.natAbs / b.natAbs)) := by
  have hpos : ∀ n : Nat, ¬ Int.ofNat n < 0 := fun n => Int.not_lt.2 (Int.natCast_nonneg n)
  unfold quotient?
  congr 2
  cases a with
  | ofNat m =>
    cases b with
    | ofNat n =>
      rw [if_pos (iff_of_false (hpos m) (hpos n))]
      rfl
    | negSucc n =>
      rw [if_neg fun h => hpos m (h.2 (Int.negSucc_lt_zero n))]
      rfl
  | negSucc m =>
    cases b with
    | ofNat n =>
      rw [if_neg fun h => hpos n (h.1 (Int.negSucc_lt_zero m))]
      rfl
    | negSucc n =>
      rw [if_pos (iff_of_true (Int.negSucc_lt_zero m) (Int.negSucc_lt_zero n))]
      rfl

theorem remainder?_eq (a b : Int) : remainder? a b = (quotient? a b).map fun q => a - b * q := by
  unfold remainder? quotient?
  split
  · rfl
  · rw [Option.map_some, Int.tmod_def]
def zeroDivisorMessage : String := "integer division or modulo by zero"

end LineLang.Word
