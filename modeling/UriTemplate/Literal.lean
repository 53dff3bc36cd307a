import UriTemplate.Grammar

/-!
# Literals

The fixed text of a template. It holds no brace, because a brace would open or close an expression;
any other character may occur. `Literal.fault?_eq_none_iff` says that nothing else is refused.
-/

namespace UriTemplate

/-- A text that holds no brace. -/
def IsPlain (cs : List Char) : Prop := ∀ c ∈ cs, !isBrace c

instance : DecidablePred IsPlain := fun cs => List.decidableBAll (fun c => !isBrace c) cs

/-- Fixed text, possibly empty. -/
structure Literal where
  text : String
  isPlain : IsPlain text.toList
  deriving DecidableEq

namespace Literal

/-- The first brace of a text and its byte offset. -/
def fault? (cs : List Char) : Option (Char × Nat) :=
  (cs.find? isBrace).map fun c => (c, byteLength (cs.takeWhile (!isBrace ·)))

theorem fault?_eq_none_iff {cs : List Char} : fault? cs = none ↔ IsPlain cs := by
  simp [fault?, IsPlain, List.find?_eq_none]

def check : Check Literal (Char × Nat) where
  fault? := fault?
  text := text
  ofText s h := ⟨s, fault?_eq_none_iff.1 h⟩
  text_ofText _ _ := rfl
  ofText_text l := ⟨fault?_eq_none_iff.2 l.isPlain, rfl⟩

/-- Reads a literal; a refusal gives the first brace and its byte offset. -/
def ofString? (s : String) : Except (Char × Nat) Literal := check.read s

theorem ofString?_eq_ok {s : String} {l : Literal} : ofString? s = .ok l ↔ l.text = s :=
  Check.read_eq_ok

theorem ofString?_eq_error {s : String} {fault : Char × Nat} :
    ofString? s = .error fault ↔ fault? s.toList = some fault := Check.read_eq_error

def empty : Literal := ⟨"", by simp [IsPlain]⟩

def push (l : Literal) (c : Char) (h : !isBrace c) : Literal :=
  ⟨l.text.push c, by
    intro d hd
    rw [String.toList_push, List.mem_append, List.mem_singleton] at hd
    rcases hd with hd | rfl
    · exact l.isPlain d hd
    · exact h⟩

def append (l m : Literal) : Literal :=
  ⟨l.text ++ m.text, by
    intro d hd
    rw [String.toList_append, List.mem_append] at hd
    rcases hd with hd | hd
    · exact l.isPlain d hd
    · exact m.isPlain d hd⟩

@[simp] theorem text_empty : empty.text = "" := rfl

@[simp] theorem text_push (l : Literal) (c : Char) (h : !isBrace c) :
    (l.push c h).text = l.text.push c := rfl

@[simp] theorem text_append (l m : Literal) : (l.append m).text = l.text ++ m.text := rfl

end Literal

end UriTemplate
