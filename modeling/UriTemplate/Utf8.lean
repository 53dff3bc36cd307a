/-!
# Reading bytes as UTF-8

A total reader of byte sequences: every well-formed sequence gives its character, and every
*maximal ill-formed part* gives one U+FFFD. Such a part is the longest start of a well-formed
sequence that the next byte does not continue, or a single byte that starts none. The byte that
breaks a sequence off is read again as the start of the next one.

The reader is a fold over the bytes, so reading `a ++ b` is reading `b` from where `a` ends.
-/

namespace UriTemplate
namespace Utf8

/-- The character that stands for an ill-formed part. -/
def replacement : Char := Char.ofNat 0xFFFD

/-- A sequence under way: the bits read so far, the number of bytes still owed (at least one), and
the range that the next of them must lie in. -/
structure Pending where
  code : Nat
  owed : Nat
  low : Nat
  high : Nat
  deriving DecidableEq, Repr

/-- What a byte says at the start of a sequence. -/
inductive Lead where
  /-- A character of one byte. -/
  | single
  /-- The first byte of a longer sequence. -/
  | opens (p : Pending)
  /-- A byte that starts no sequence. -/
  | illFormed
  deriving DecidableEq, Repr

/-- The first byte fixes the length; four of them also narrow the second byte, which keeps out
overlong forms, surrogates and codes above U+10FFFF. -/
def lead (b : Nat) : Lead :=
  if b < 0x80 then .single
  else if b < 0xC2 then .illFormed
  else if b < 0xE0 then .opens ⟨b - 0xC0, 1, 0x80, 0xBF⟩
  else if b = 0xE0 then .opens ⟨0, 2, 0xA0, 0xBF⟩
  else if b = 0xED then .opens ⟨0xD, 2, 0x80, 0x9F⟩
  else if b < 0xF0 then .opens ⟨b - 0xE0, 2, 0x80, 0xBF⟩
  else if b = 0xF0 then .opens ⟨0, 3, 0x90, 0xBF⟩
  else if b < 0xF4 then .opens ⟨b - 0xF0, 3, 0x80, 0xBF⟩
  else if b = 0xF4 then .opens ⟨4, 3, 0x80, 0x8F⟩
  else .illFormed

/-- Where a reader stands: the characters read, the last one first, and a sequence under way. -/
structure Reader where
  done : List Char := []
  pending : Option Pending := none
  deriving DecidableEq, Repr

def startAt (done : List Char) (b : Nat) : Reader :=
  match lead b with
  | .single => ⟨Char.ofNat b :: done, none⟩
  | .opens p => ⟨done, some p⟩
  | .illFormed => ⟨replacement :: done, none⟩

def Reader.push (r : Reader) (byte : UInt8) : Reader :=
  let b := byte.toNat
  match r.pending with
  | none => startAt r.done b
  | some p =>
    if p.low ≤ b ∧ b ≤ p.high then
      let code := p.code * 64 + b % 64
      if p.owed ≤ 1 then ⟨Char.ofNat code :: r.done, none⟩
      else ⟨r.done, some ⟨code, p.owed - 1, 0x80, 0xBF⟩⟩
    else startAt (replacement :: r.done) b

/-- The characters read when no byte follows: a sequence under way is ill-formed. -/
def Reader.finish (r : Reader) : List Char :=
  match r.pending with
  | none => r.done.reverse
  | some _ => (replacement :: r.done).reverse

/-- The text that bytes stand for, with one replacement character for each ill-formed part. -/
def read (bytes : List UInt8) : List Char := (bytes.foldl Reader.push {}).finish

@[simp] theorem read_nil : read [] = [] := rfl

theorem read_append (a b : List UInt8) :
    read (a ++ b) = (b.foldl Reader.push (a.foldl Reader.push {})).finish := by
  rw [read, List.foldl_append]

end Utf8
end UriTemplate
