import LineLang.Text.Decimal

/-!
# Binary floating point numbers of 64 bits

A number with a fraction or an exponent denotes the nearest number `m * 2 ^ e` with `m < 2 ^ 53`, ties going to
an even `m`.

* `Binary64` : such numbers, with infinities and the not-a-number;
* `Binary64.ofDecimal` : the number nearest to a decimal `d * 10 ^ k`;
* `Binary64.truncate?` : the integer part;
* `Binary64.shortest` : the fewest decimal digits that denote the number, the nearest of those;
* `Binary64.text` : these digits written out, positionally for exponents from -4 to 15.
-/

namespace LineLang

/-- A binary floating point number: `significand * 2 ^ exponent` if finite. -/
inductive Binary64 where
  | nan
  | infinite (negative : Bool)
  | finite (negative : Bool) (significand : Nat) (exponent : Int)
  deriving DecidableEq, Repr

namespace Binary64

/-- The quotient rounded to the nearest integer, a half to the even one. -/
def roundDiv (num den : Nat) : Nat :=
  let q := num / den
  let r := num % den
  if 2 * r < den || (2 * r = den && q % 2 = 0) then q else q + 1

/-- The quotient `num / den` scaled by `2 ^ (-e)`, as a pair again. -/
def scale (num den : Nat) (e : Int) : Nat × Nat :=
  if e ≤ 0 then (num * Nat.pow 2 e.natAbs, den) else (num, den * Nat.pow 2 e.natAbs)

/-- The greatest `l` with `2 ^ l ≤ num / den`. -/
def floorLog2 (num den : Nat) : Int :=
  let l : Int := Nat.log2 num - Nat.log2 den
  let (n, d) := scale num den l
  if d ≤ n then l else l - 1

/-- The number nearest to the positive quotient `num / den`. -/
def ofQuotient (negative : Bool) (num den : Nat) : Binary64 :=
  let e := max (floorLog2 num den - 52) (-1074)
  let (n, d) := scale num den e
  let m := roundDiv n d
  let (m, e) := if m = 0x20000000000000 then (0x10000000000000, e + 1) else (m, e)
  if 971 < e then .infinite negative else .finite negative m e

/-- The number nearest to `d * 10 ^ k`. Far outside the range of the format no power is computed. -/
def ofDecimal (negative : Bool) (d : Nat) (k : Int) : Binary64 :=
  if d = 0 then .finite negative 0 (-1074)
  else
    let places : Int := (Text.Decimal.digitsOf d).length + k
    if 310 < places then .infinite negative
    else if places < -330 then .finite negative 0 (-1074)
    else if 0 ≤ k then ofQuotient negative (d * Nat.pow 10 k.natAbs) 1
    else ofQuotient negative d (Nat.pow 10 k.natAbs)

def truncate? : Binary64 → Option Int
  | .finite negative m e =>
    let n : Nat := if 0 ≤ e then m * Nat.pow 2 e.natAbs else m / Nat.pow 2 e.natAbs
    some (if negative then -n else n)
  | _ => none

/-- The number of places before the point of the positive quotient `num / den`; zero or less if it is below
one. -/
def places (num den : Nat) : Int :=
  if den ≤ num then (Text.Decimal.digitsOf (num / den)).length
  else -((List.range 400).takeWhile fun j => num * Nat.pow 10 (j + 1) < den).length

/-- The neighbours of `num / den` among the decimals with `n` digits that denote `x`, the nearest first. -/
def candidates (negative : Bool) (m : Nat) (e : Int) (num den n : Nat) (p : Int) : List Nat :=
  let k := p - n
  let (a, b) := if 0 ≤ k then (num, den * Nat.pow 10 k.natAbs) else (num * Nat.pow 10 k.natAbs, den)
  let low := a / b
  let r := a % b
  let order := if 2 * r < b || (2 * r = b && low % 2 = 0) then [low, low + 1] else [low + 1, low]
  order.filter fun c => ofDecimal negative c k = .finite negative m e

/-- The fewest decimal digits that denote `m * 2 ^ e`, as a number, with the place of the point: `(d, p)` stands
for `d` shifted so that `p` digits stand before the point. -/
def shortest (m : Nat) (e : Int) : Nat × Int :=
  let (num, den) := if 0 ≤ e then (m * Nat.pow 2 e.natAbs, 1) else (m, Nat.pow 2 e.natAbs)
  let p := places num den
  let hit := (List.range 17).findSome? fun i =>
    (candidates false m e num den (i + 1) p).head?.map fun c => (c, i + 1)
  match hit with
  | some (c, n) => if (Text.Decimal.digitsOf c).length = n then (c, p) else (c, p + 1)
  | none => (num / den, p)

/-- A digit string with its trailing zeros removed, but never all of it. -/
def trimZeros (cs : List Char) : List Char :=
  match (cs.reverse.dropWhile (· = '0')).reverse with
  | [] => ['0']
  | ds => ds

/-- The digits `ds`, with `p` of them before the point, written out. -/
def layout (ds : List Char) (p : Int) : List Char :=
  if -4 < p && p ≤ 16 then
    if p ≤ 0 then '0' :: '.' :: (List.replicate p.natAbs '0' ++ ds)
    else if ds.length ≤ p.natAbs then ds ++ List.replicate (p.natAbs - ds.length) '0' ++ ['.', '0']
    else ds.take p.natAbs ++ '.' :: ds.drop p.natAbs
  else
    let e := p - 1
    let mantissa := match ds with
      | [d] => [d]
      | d :: ds => d :: '.' :: ds
      | [] => []
    let shown := Text.Decimal.digitsOf e.natAbs
    mantissa ++ 'e' :: (if e < 0 then '-' else '+') ::
      (List.replicate (2 - shown.length) '0' ++ shown)

/-- The text of a number, by the fewest digits that denote it. -/
def text : Binary64 → String
  | .nan => "nan"
  | .infinite false => "inf"
  | .infinite true => "-inf"
  | .finite negative m e =>
    let body :=
      if m = 0 then ['0', '.', '0']
      else
        let (d, p) := shortest m e
        layout (trimZeros (Text.Decimal.digitsOf d)) p
    String.ofList (if negative then '-' :: body else body)

end Binary64

end LineLang
