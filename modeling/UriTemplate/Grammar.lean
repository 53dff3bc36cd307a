/-!
# Characters of the grammar

The character classes that templates, names and values are made of, and the marks that delimit an
expression. Every class is ASCII; a character outside it belongs to literal text only.

A `Check` is a grammar of texts that is given by a search for faults. Reading a text by one gives
the member that is written as the text (`Check.read_eq_ok`), or the fault (`Check.read_eq_error`).
-/

namespace UriTemplate

/-! ## Marks -/

def expressionStart : Char := '{'

def expressionEnd : Char := '}'

def defaultMark : Char := '='

def percentMark : Char := '%'

/-- The unreserved characters that are neither letters nor digits. -/
def unreservedMarks : String := "-._~"

/-! ## Classes -/

/-- Braces delimit expressions and occur in no literal. -/
def isBrace (c : Char) : Bool := c == expressionStart || c == expressionEnd

/-- Letters, digits and the four marks stand for themselves in a value. -/
def isUnreserved (c : Char) : Bool := c.isAlphanum || unreservedMarks.toList.contains c

theorem isUnreserved_eq (c : Char) :
    isUnreserved c = (c.isAlphanum || c == '-' || c == '.' || c == '_' || c == '~') := by
  have hmarks : unreservedMarks.toList = ['-', '.', '_', '~'] := by decide
  simp only [isUnreserved, hmarks, List.contains_cons, List.contains_nil, Bool.or_false,
    Bool.or_assoc]

/-- The characters a name may hold after its first one, which is a letter or a digit. -/
def isNameChar (c : Char) : Bool := c.isAlphanum || c == '.' || c == '_' || c == '-'

def isHexDigit (c : Char) : Bool :=
  c.isDigit || ('a' ≤ c && c ≤ 'f') || ('A' ≤ c && c ≤ 'F')

theorem isHexDigit_toNat_lt {c : Char} (h : isHexDigit c) : c.toNat < 128 := by
  have hc : c.toNat = c.val.toNat := rfl
  simp only [isHexDigit, Char.isDigit, Char.le_def, Bool.or_eq_true, Bool.and_eq_true,
    decide_eq_true_eq, ge_iff_le, UInt32.le_iff_toNat_le, Char.reduceVal, UInt32.reduceToNat] at h
  omega

theorem isHexDigit_isAlphanum {c : Char} (h : isHexDigit c) : c.isAlphanum := by
  have ascii : ∀ n < 128, isHexDigit (Char.ofNat n) → (Char.ofNat n).isAlphanum := by decide
  have hc := ascii c.toNat (isHexDigit_toNat_lt h)
  rw [Char.ofNat_toNat] at hc
  exact hc h

/-- A triple's digits are values of their own, so a value may go on from inside a triple. -/
theorem isHexDigit_isUnreserved {c : Char} (h : isHexDigit c) : isUnreserved c := by
  simp [isUnreserved_eq, isHexDigit_isAlphanum h]

/-! ## Offsets -/

/-- The length of a text in bytes, the unit in which template positions count. -/
def byteLength (cs : List Char) : Nat := cs.foldr (fun c n => c.utf8Size + n) 0

@[simp] theorem byteLength_nil : byteLength [] = 0 := rfl

@[simp] theorem byteLength_cons (c : Char) (cs : List Char) :
    byteLength (c :: cs) = c.utf8Size + byteLength cs := rfl

@[simp] theorem byteLength_append (a b : List Char) :
    byteLength (a ++ b) = byteLength a + byteLength b := by
  induction a with
  | nil => simp
  | cons c cs ih => simp [ih]; omega

/-! ## Checked texts -/

/-- A grammar of texts: `α` has a member for each text in which the check finds no fault. -/
structure Check (α ε : Type) where
  fault? : List Char → Option ε
  text : α → String
  ofText (s : String) (h : fault? s.toList = none) : α
  text_ofText : ∀ s h, text (ofText s h) = s
  ofText_text : ∀ a, ∃ h, ofText (text a) h = a

namespace Check

variable {α ε : Type} {check : Check α ε} {s : String}

/-- The member of the grammar that a text writes, or the fault of the text. -/
def read (check : Check α ε) (s : String) : Except ε α :=
  match h : check.fault? s.toList with
  | none => .ok (check.ofText s h)
  | some fault => .error fault

theorem read_eq_ok {a : α} : check.read s = .ok a ↔ check.text a = s := by
  constructor
  · intro h
    unfold read at h
    split at h
    · cases h
      exact check.text_ofText s _
    · cases h
  · rintro rfl
    obtain ⟨hnone, ha⟩ := check.ofText_text a
    unfold read
    split
    · rw [ha]
    · rename_i fault hfault
      rw [hnone] at hfault
      cases hfault

theorem read_eq_error {fault : ε} :
    check.read s = .error fault ↔ check.fault? s.toList = some fault := by
  unfold read
  split
  · rename_i hnone
    refine ⟨nofun, fun h => ?_⟩
    rw [hnone] at h
    cases h
  · rename_i found hfound
    rw [hfound, Except.error.injEq, Option.some.injEq]

end Check

end UriTemplate
