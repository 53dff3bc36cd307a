/-!
# Layout of decimals

How a decimal is written out: in positional notation with a digit on either side of the point, or as
digits and an exponent. A `Layout` says for which magnitudes the notation is positional.
-/

namespace UriTemplate

/-- The range of decimal exponents of the first digit that are written positionally. -/
structure Layout where
  least : Int
  greatest : Int
  deriving DecidableEq, Repr

namespace Layout

/-- The decimal `d · 10 ^ e` in positional notation, with at least one digit after the point. -/
def positional (d : Nat) (e : Int) : String :=
  let digits := Nat.repr d
  if 0 ≤ e then digits ++ String.ofList (List.replicate e.toNat '0') ++ ".0"
  else
    let places := (-e).toNat
    let padded := List.replicate (places + 1 - digits.length) '0' ++ digits.toList
    String.ofList (padded.take (padded.length - places)) ++ "." ++
      String.ofList (padded.drop (padded.length - places))

/-- Digits with the point, if any follow the first one, and a signed exponent. -/
def scientific (digits : List Char) (exponent : Int) : String :=
  let mantissa := match digits with
    | c :: d :: ds => c :: '.' :: d :: ds
    | ds => ds
  let sign := if exponent < 0 then "-" else "+"
  String.ofList mantissa ++ "e" ++ sign ++ Nat.repr exponent.natAbs

def write (layout : Layout) (d : Nat) (e : Int) : String :=
  let digits := (Nat.repr d).toList
  let exponent := e + digits.length - 1
  if layout.least ≤ exponent && exponent ≤ layout.greatest then positional d e
  else scientific digits exponent

end Layout

end UriTemplate
