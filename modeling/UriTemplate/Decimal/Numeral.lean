/-!
# Numerals

What a written number, such as `-12`, `0.5` or `1e-7`, stands for. Digits are gathered into one
64-bit word, and a number with a fraction or an exponent is that word, as a double, scaled by one
power of ten. The result is the nearest double whenever word and power are doubles themselves;
otherwise it can be a neighbour of the nearest one.
-/

namespace UriTemplate

/-- A number as written: the sign, the digits gathered into a word, the power of ten that scales it,
and whether it is written as an integer that the word holds. -/
structure Numeral where
  negative : Bool
  word : Nat
  exponent : Int
  whole : Bool
  deriving DecidableEq, Repr

namespace Numeral

/-- A run of digits on top of a word: the new word, the numbers of digits that it holds and that it
does not, and the characters after the run. A digit that no longer fits, and each one after it, is
left out. -/
def digits (word taken left : Nat) : List Char → Nat × Nat × Nat × List Char
  | [] => (word, taken, left, [])
  | c :: cs =>
    if c.isDigit then
      let next := word * 10 + (c.toNat - 0x30)
      if left = 0 && next < 0x10000000000000000 then digits next (taken + 1) 0 cs
      else digits word taken (left + 1) cs
    else (word, taken, left, c :: cs)

/-- The exponent after its mark. -/
def exponentOf : List Char → Int
  | '-' :: cs => -Int.ofNat ((String.ofList cs).toNat?.getD 0)
  | '+' :: cs => Int.ofNat ((String.ofList cs).toNat?.getD 0)
  | cs => Int.ofNat ((String.ofList cs).toNat?.getD 0)

/-- Reads a number without its sign. -/
def ofUnsigned (negative : Bool) (cs : List Char) : Numeral :=
  let (word, _, left, rest) := digits 0 0 0 cs
  match rest with
  | [] => ⟨negative, word, left, left = 0⟩
  | '.' :: fraction =>
    let (word, taken, _, rest) := digits word 0 0 fraction
    ⟨negative, word, Int.ofNat left - taken + exponentOf (rest.drop 1), false⟩
  | _ :: exponent => ⟨negative, word, left + exponentOf exponent, false⟩

def ofString (s : String) : Numeral :=
  match s.toList with
  | '-' :: cs => ofUnsigned true cs
  | cs => ofUnsigned false cs

/-- The integer that a numeral writes, if it lies between the least signed and the greatest unsigned
word. There is no integer `-0`. -/
def integer? (n : Numeral) : Option Int :=
  if !n.whole then none
  else if !n.negative then some n.word
  else if 0 < n.word && n.word ≤ 0x8000000000000000 then some (-Int.ofNat n.word)
  else none

/-- A power of ten, the nearest double to it. -/
def power (e : Nat) : Float := Float.ofScientific 1 false e

/-- A word scaled by a power of ten. Division by the greatest power of ten goes first where the
exponent is out of range for one power, and two such divisions leave nothing of any word. -/
def scale (word : Nat) (e : Int) : Float :=
  let x := Float.ofNat word
  if 0 ≤ e then x * power e.toNat
  else if -308 ≤ e then x / power (-e).toNat
  else if -616 ≤ e then x / power 308 / power (-308 - e).toNat
  else 0

def real (n : Numeral) : Float :=
  if n.negative then -scale n.word n.exponent else scale n.word n.exponent

end Numeral

end UriTemplate
