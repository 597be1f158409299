/-!
# Decimal text of integers

* `digitsOf n` : the digits of a natural number, most significant first, without leading zeros;
* `ofNat`, `ofInt` : its text, with a minus sign in front of a negative number;
* `digitValue`, `valueOf` : the number that digits denote, with `valueOf_digitsOf`.
-/

namespace LineLang.Text.Decimal

/-- The digit character of a number below ten. -/
def digit (n : Nat) : Char := Char.ofNat (0x30 + n)

def digitsOf (n : Nat) : List Char :=
  if n < 10 then [digit n] else digitsOf (n / 10) ++ [digit (n % 10)]

def ofNat (n : Nat) : String := String.ofList (digitsOf n)

def ofInt (n : Int) : String :=
  String.ofList (if n < 0 then '-' :: digitsOf n.natAbs else digitsOf n.natAbs)

def digitValue (c : Char) : Nat := c.toNat - 0x30

def valueOf (cs : List Char) : Nat :=
  cs.foldl (fun n c => 10 * n + digitValue c) 0

theorem digitValue_digit {n : Nat} (h : n < 10) : digitValue (digit n) = n := by
  have all : ∀ k : Fin 10, digitValue (digit k) = k := by decide
  exact all ⟨n, h⟩

theorem valueOf_append (xs : List Char) (c : Char) :
    valueOf (xs ++ [c]) = 10 * valueOf xs + digitValue c := by
  simp [valueOf, List.foldl_append]

theorem valueOf_digitsOf (n : Nat) : valueOf (digitsOf n) = n := by
  induction n using Nat.strongRecOn with
  | _ n ih =>
    rw [digitsOf]
    split
    · next h => simp [valueOf, digitValue_digit h]
    · next h =>
      rw [valueOf_append, ih (n / 10) (by omega), digitValue_digit (Nat.mod_lt n (by omega))]
      omega

end LineLang.Text.Decimal
