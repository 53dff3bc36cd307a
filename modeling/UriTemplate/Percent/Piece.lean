import UriTemplate.Grammar

/-!
# Pieces of percent-encoded text

Any text is a sequence of pieces: a well-formed triple `%HH`, or a single character that belongs to
no triple. Reading into pieces is total and loses nothing:

* **Losslessness.** `toChars_ofChars`: the pieces of a text spell that text.
* **Triples first.** `ofChars_triple`: a mark followed by two hexadecimal digits is one piece.
* **All else alone.** `ofChars_cons`: a character that starts no triple is a piece of its own.
-/

namespace UriTemplate

/-- A unit of percent-encoded text. -/
inductive Piece where
  /-- The mark and two hexadecimal digits, high nibble first. -/
  | triple (hi lo : Char)
  /-- A character outside any triple. -/
  | char (c : Char)
  deriving DecidableEq, Repr

namespace Piece

def text : Piece → List Char
  | triple hi lo => [percentMark, hi, lo]
  | char c => [c]

/-- Puts one character before text that is already in pieces; a mark joins the two digits after it. -/
def cons (c : Char) : List Piece → List Piece
  | char hi :: char lo :: ps =>
    if c == percentMark && isHexDigit hi && isHexDigit lo then triple hi lo :: ps
    else char c :: char hi :: char lo :: ps
  | ps => char c :: ps

def ofChars (cs : List Char) : List Piece := cs.foldr cons []

def toChars (ps : List Piece) : List Char := ps.flatMap text

/-- Triples and unreserved characters are what values are made of. -/
def isEncoded : Piece → Bool
  | triple _ _ => true
  | char c => isUnreserved c

/-! ## Reading a text into pieces -/

@[simp] theorem ofChars_nil : ofChars [] = [] := rfl

theorem ofChars_cons_eq (c : Char) (cs : List Char) : ofChars (c :: cs) = cons c (ofChars cs) := rfl

@[simp] theorem toChars_nil : toChars [] = [] := rfl

@[simp] theorem toChars_cons (p : Piece) (ps : List Piece) :
    toChars (p :: ps) = p.text ++ toChars ps := rfl

@[simp] theorem toChars_append (ps qs : List Piece) :
    toChars (ps ++ qs) = toChars ps ++ toChars qs := List.flatMap_append

theorem cons_of_ne {c : Char} (h : c ≠ percentMark) (ps : List Piece) :
    cons c ps = char c :: ps := by
  unfold cons
  split <;> simp [h]

theorem toChars_piece_cons (c : Char) (ps : List Piece) :
    toChars (cons c ps) = c :: toChars ps := by
  unfold cons
  split
  · split
    · simp_all [text]
    · simp [text]
  · simp [text]

@[simp] theorem toChars_ofChars (cs : List Char) : toChars (ofChars cs) = cs := by
  induction cs with
  | nil => rfl
  | cons c cs ih => rw [ofChars_cons_eq, toChars_piece_cons, ih]

theorem isHexDigit_ne_percentMark {c : Char} (h : isHexDigit c) : c ≠ percentMark := by
  rintro rfl
  exact absurd h (by decide)

theorem ofChars_triple {hi lo : Char} (hhi : isHexDigit hi) (hlo : isHexDigit lo)
    (cs : List Char) :
    ofChars (percentMark :: hi :: lo :: cs) = triple hi lo :: ofChars cs := by
  rw [ofChars_cons_eq, ofChars_cons_eq, ofChars_cons_eq,
    cons_of_ne (isHexDigit_ne_percentMark hlo), cons_of_ne (isHexDigit_ne_percentMark hhi)]
  simp [cons, hhi, hlo]

/-- Whether a text begins with a well-formed triple. -/
def startsTriple : List Char → Bool
  | c :: hi :: lo :: _ => c == percentMark && isHexDigit hi && isHexDigit lo
  | _ => false

theorem ofChars_cons {c : Char} {cs : List Char} (h : startsTriple (c :: cs) = false) :
    ofChars (c :: cs) = char c :: ofChars cs := by
  rw [ofChars_cons_eq]
  by_cases hc : c = percentMark
  · subst hc
    unfold cons
    split
    · rename_i hi lo ps heq
      have hcs : cs = hi :: lo :: toChars ps := by
        rw [← toChars_ofChars cs, heq]; rfl
      subst hcs
      rw [heq, if_neg]
      simpa [startsTriple] using h
    · rfl
  · exact cons_of_ne hc _

end Piece

end UriTemplate
