import UriTemplate.Percent.Piece

/-!
# Encoded text

The grammar of defaults and values: unreserved characters and percent-encoded triples. A default
may be empty, a value may not.

* **Refusals.** `Encoded.fault?` gives the byte at which the first piece outside the grammar stands.
* **Acceptance.** `Encoded.fault?_eq_none_iff`: a text without a fault has only encoded pieces.
-/

namespace UriTemplate

/-- Every piece is a triple or an unreserved character. -/
def IsEncoded (cs : List Char) : Prop := ∀ p ∈ Piece.ofChars cs, p.isEncoded

/-- What a variable can stand for in a URI. -/
def IsValue (cs : List Char) : Prop := cs ≠ [] ∧ IsEncoded cs

instance : DecidablePred IsEncoded := fun cs =>
  inferInstanceAs (Decidable (∀ p ∈ Piece.ofChars cs, p.isEncoded))

instance : DecidablePred IsValue := fun cs =>
  inferInstanceAs (Decidable (cs ≠ [] ∧ IsEncoded cs))

namespace Encoded

/-- The byte offset of the first piece outside the grammar. -/
def fault? (cs : List Char) : Option Nat :=
  ((Piece.ofChars cs).find? (!·.isEncoded)).map fun _ =>
    byteLength (Piece.toChars ((Piece.ofChars cs).takeWhile Piece.isEncoded))

theorem fault?_eq_none_iff {cs : List Char} : fault? cs = none ↔ IsEncoded cs := by
  simp [fault?, IsEncoded, List.find?_eq_none]

end Encoded

/-- A text made of unreserved characters and triples, possibly empty. -/
structure Encoded where
  text : String
  isEncoded : IsEncoded text.toList
  deriving DecidableEq

namespace Encoded

def check : Check Encoded Nat where
  fault? := fault?
  text := text
  ofText s h := ⟨s, fault?_eq_none_iff.1 h⟩
  text_ofText _ _ := rfl
  ofText_text e := ⟨fault?_eq_none_iff.2 e.isEncoded, rfl⟩

/-- Reads an encoded text; a refusal gives the byte offset of the first fault. -/
def ofString? (s : String) : Except Nat Encoded := check.read s

theorem ofString?_eq_ok {s : String} {e : Encoded} : ofString? s = .ok e ↔ e.text = s :=
  Check.read_eq_ok

theorem ofString?_eq_error {s : String} {position : Nat} :
    ofString? s = .error position ↔ fault? s.toList = some position := Check.read_eq_error

def isValue (s : String) : Bool := decide (IsValue s.toList)

end Encoded

end UriTemplate
