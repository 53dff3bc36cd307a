import UriTemplate.Grammar

/-!
# Names

Variables and types share one grammar of names: a letter or a digit, then letters, digits and the
marks `.`, `_`, `-`. A `Name` is a text that obeys it.

* **Refusals.** `Name.fault?` gives the first character at fault, counted in characters.
* **Acceptance.** `Name.fault?_eq_none_iff`: a text without a fault is one that obeys the grammar.
-/

namespace UriTemplate

/-- Why a text is no name. -/
inductive NameFault where
  | empty
  /-- The character `c`, which stands after `position` others, does not belong there. -/
  | badChar (c : Char) (position : Nat)
  deriving DecidableEq, Repr

/-- A character allowed at the start, then characters allowed in a name. -/
def IsName : List Char → Prop
  | [] => False
  | c :: cs => c.isAlphanum ∧ ∀ x ∈ cs, isNameChar x

instance : DecidablePred IsName
  | [] => .isFalse id
  | c :: cs =>
    have : Decidable (∀ x ∈ cs, isNameChar x) := List.decidableBAll (isNameChar ·) cs
    inferInstanceAs (Decidable (c.isAlphanum ∧ ∀ x ∈ cs, isNameChar x))

namespace Name

/-- The first fault of a text read as a name. -/
def fault? : List Char → Option NameFault
  | [] => some .empty
  | c :: cs =>
    if c.isAlphanum then
      (cs.find? (!isNameChar ·)).map fun bad =>
        .badChar bad (1 + (cs.takeWhile isNameChar).length)
    else some (.badChar c 0)

theorem fault?_eq_none_iff {cs : List Char} : fault? cs = none ↔ IsName cs := by
  match cs with
  | [] => simp [fault?, IsName]
  | c :: cs =>
    by_cases hc : c.isAlphanum
    · simp [fault?, IsName, hc, List.find?_eq_none]
    · simp [fault?, IsName, hc]

end Name

/-- A text that obeys the grammar of names. -/
structure Name where
  text : String
  isName : IsName text.toList
  deriving DecidableEq

namespace Name

instance : ToString Name := ⟨Name.text⟩

/-- Names are ordered as their texts are, character by character. -/
instance : Ord Name := ⟨fun a b => compare a.text b.text⟩

def check : Check Name NameFault where
  fault? := fault?
  text := text
  ofText s h := ⟨s, fault?_eq_none_iff.1 h⟩
  text_ofText _ _ := rfl
  ofText_text name := ⟨fault?_eq_none_iff.2 name.isName, rfl⟩

def ofString? (s : String) : Except NameFault Name := check.read s

theorem ofString?_eq_ok {s : String} {name : Name} : ofString? s = .ok name ↔ name.text = s :=
  Check.read_eq_ok

theorem ofString?_eq_error {s : String} {fault : NameFault} :
    ofString? s = .error fault ↔ fault? s.toList = some fault := Check.read_eq_error

def accepts (s : String) : Bool := (fault? s.toList).isNone

/-- Names in order, repeated ones included. -/
def sorted (names : List Name) : List Name := names.mergeSort (fun a b => (compare a b).isLE)

/-- The number of different names in a list. -/
def countDistinct (names : List Name) : Nat := (names.map text).eraseDups.length

end Name

/-! ## Messages -/

/-- What is reported of a text that was to be the name of a variable. -/
def NameFault.variableMessage (name : String) : NameFault → String
  | .empty => "variable name cannot be empty"
  | .badChar c 0 => s!"variable name '{name}' must start with a letter or digit, found '{c}'"
  | .badChar c position =>
    s!"invalid character '{c}' at position {position} in variable name '{name}'; " ++
      "only letters, digits, '.', '_' and '-' allowed"

def NameFault.typeMessage : NameFault → String
  | .empty => "variable type name cannot be empty"
  | .badChar c position => s!"invalid character '{c}' at position {position} in variable type name"

end UriTemplate
