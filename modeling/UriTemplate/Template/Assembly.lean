import UriTemplate.Template.Basic
import UriTemplate.Template.Fault

/-!
# Assembling a template from parts

Parts in any order make a template: consecutive literals are joined and empty ones vanish. The one
thing refused is a brace in a literal, at its place in the text of all parts together.
-/

namespace UriTemplate

/-- The written form of a sequence of parts. -/
def Part.textOf (parts : List Part) : String := String.join (parts.map Part.text)

/-- Adds parts to a template under construction; `offset` is the number of bytes before them. -/
def Growing.parts (g : Growing) (offset : Nat) : List Part → Except TemplateFault Growing
  | [] => .ok g
  | .literal text :: ps =>
    match Literal.ofString? text with
    | .ok l => (g.literal l).parts (offset + text.utf8ByteSize) ps
    | .error (c, position) => .error (.unexpectedBrace c (offset + position))
  | .expression v :: ps =>
    (g.expression v).parts (offset + (Part.expression v).text.utf8ByteSize) ps

/-- The template that parts make up, or the first brace in a literal. -/
def Template.ofParts (parts : List Part) : Except TemplateFault Template :=
  match Growing.parts {} 0 parts with
  | .ok g => .ok g.finish
  | .error fault => .error fault

/-- Reads literal text as a part by itself. -/
def Part.ofText? (text : String) : Except TemplateError Part :=
  match Literal.ofString? text with
  | .ok l => .ok (.literal l.text)
  | .error (c, position) => .error ⟨text, .unexpectedBrace c position⟩

end UriTemplate
