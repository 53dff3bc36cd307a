/-!
# Shortest decimals

The decimal with the fewest digits that reads back as a given binary number. A positive binary
number `m · 2 ^ q` owns the interval of reals that round to it; the shortest decimal is a point of
the coarsest grid `d · 10 ^ e` that meets the interval, and of two such points the nearer one. All
arithmetic is exact.
-/

namespace UriTemplate

/-- A positive binary number `m · 2 ^ q`; `even` says whether the reals at half a unit round to it,
and `narrow` whether the gap below it is half the gap above. -/
structure Binary where
  m : Nat
  q : Int
  even : Bool
  narrow : Bool
  deriving DecidableEq, Repr

namespace Binary

/-- The magnitude of a double by its bits, or none for zero, infinities and what is no number. -/
def ofBits? (bits : UInt64) : Option Binary :=
  let exponent : Nat := (bits.toNat / Nat.pow 2 52) % 2048
  let fraction := bits.toNat % Nat.pow 2 52
  if exponent = 2047 then none
  else if exponent = 0 then
    if fraction = 0 then none else some ⟨fraction, -1074, fraction % 2 == 0, false⟩
  else
    some ⟨Nat.pow 2 52 + fraction, Int.ofNat exponent - 1075, fraction % 2 == 0,
      fraction == 0 && 1 < exponent⟩

/-- Whether `a · 10 ^ e ≤ b · 2 ^ p`, or `<` if `strict`. -/
def below (strict : Bool) (a : Nat) (e : Int) (b : Nat) (p : Int) : Bool :=
  let left := a * Nat.pow 10 e.toNat * Nat.pow 2 (-p).toNat
  let right := b * Nat.pow 2 p.toNat * Nat.pow 10 (-e).toNat
  if strict then left < right else left ≤ right

/-- Whether `d · 10 ^ e` rounds to the number. -/
def owns (x : Binary) (d : Nat) (e : Int) : Bool :=
  let low := if x.narrow then 4 * x.m - 1 else 4 * x.m - 2
  !below x.even d e low (x.q - 2) && below (!x.even) d e (4 * x.m + 2) (x.q - 2)

/-- The point of the grid `10 ^ e` that rounds to the number and is nearest to it. -/
def nearest? (x : Binary) (e : Int) : Option Nat :=
  let numerator := x.m * Nat.pow 2 x.q.toNat * Nat.pow 10 (-e).toNat
  let denominator := Nat.pow 2 (-x.q).toNat * Nat.pow 10 e.toNat
  let d := numerator / denominator
  match x.owns d e, x.owns (d + 1) e with
  | true, false => some d
  | false, true => some (d + 1)
  | false, false => none
  | true, true =>
    if 2 * numerator < (2 * d + 1) * denominator then some d
    else if (2 * d + 1) * denominator < 2 * numerator then some (d + 1)
    else some (d + d % 2)

/-- The digits and the exponent of the shortest decimal; the grids run from the coarsest that a
double can meet to one that meets every interval. -/
def shortest (x : Binary) : Nat × Int :=
  let grids := (List.range 660).map fun i => 309 - Int.ofNat i
  (grids.findSome? fun e => (x.nearest? e).map (·, e)).getD (0, 0)

end Binary

end UriTemplate
