import UriTemplate.Literal
import UriTemplate.Part

/-!
# Templates

A template is a sequence of fields, each a literal followed by a variable, and a last literal. Any
literal may be empty, so every sequence of parts has exactly one such form once its consecutive
literals are joined; two templates are equal when they have the same variables between the same
texts. `Template.parts` is the view as a sequence of parts, without the empty literals.
-/

namespace UriTemplate

/-- A literal and the variable that follows it. -/
structure Field where
  before : Literal
  slot : Variable
  deriving DecidableEq

structure Template where
  fields : List Field
  tail : Literal
  deriving DecidableEq

/-- A literal as parts of a template: none if it is empty. -/
def Literal.parts (l : Literal) : List Part := if l.text.isEmpty then [] else [.literal l.text]

namespace Template

def empty : Template := ⟨[], .empty⟩

/-! ## Views -/

/-- The parts in order: no literal is empty and no two are neighbours. -/
def parts (t : Template) : List Part :=
  t.fields.flatMap (fun f => f.before.parts ++ [.expression f.slot]) ++ t.tail.parts

def slots (t : Template) : List Variable := t.fields.map Field.slot

/-- The names of the variables in order, each as often as it is used. -/
def names (t : Template) : List String := t.slots.map (·.name.text)

def text (t : Template) : String := String.join (t.parts.map Part.text)

instance : ToString Template := ⟨text⟩

/-- The regular expression for the URIs of a template, anchored at both ends. -/
def pattern (t : Template) : String := "^" ++ String.join (t.parts.map Part.pattern) ++ "$"

/-- The variables that follow one another with no text between them. -/
def adjacent (t : Template) : List (Variable × Variable) :=
  (t.fields.zip t.fields.tail).filterMap fun (left, right) =>
    if right.before.text.isEmpty then some (left.slot, right.slot) else none

/-! ## Expansion -/

/-- The URI that a template becomes under bindings. -/
def expand {α : Type} [Bindings α] (t : Template) (bindings : α) : String :=
  String.join (t.parts.map (·.expansion bindings))

end Template

/-! ## Templates under construction -/

/-- A template whose end is not reached: the fields so far, the last one first, and the literal text
after them. -/
structure Growing where
  done : List Field := []
  last : Literal := .empty

namespace Growing

/-- One more character of literal text. -/
def push (g : Growing) (c : Char) (h : !isBrace c) : Growing :=
  match g with
  | ⟨done, last⟩ => ⟨done, last.push c h⟩

def literal (g : Growing) (l : Literal) : Growing :=
  match g with
  | ⟨done, last⟩ => ⟨done, last.append l⟩

/-- A variable, which ends the literal text before it. -/
def expression (g : Growing) (v : Variable) : Growing := ⟨⟨g.last, v⟩ :: g.done, .empty⟩

/-- The template, with nothing more to come. -/
def finish (g : Growing) : Template := ⟨g.done.reverse, g.last⟩

end Growing

end UriTemplate
