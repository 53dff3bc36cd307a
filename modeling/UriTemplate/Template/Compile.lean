import UriTemplate.Log
import UriTemplate.Template.Assembly
import UriTemplate.Template.Scan

/-!
# Compiling templates

A template comes from text (`Template.compile`) or from parts put together step by step (`Draft`).
Either way it is accepted only if its regular expression stays within the size limit, and the events
are the same: one for each pair of adjacent variables, then one when it compiled.
-/

namespace UriTemplate

namespace Template

/-! ## Size -/

/-- The bytes that a part counts against the size limit: by its length for a literal, and the same
for every variable, since all values share one grammar. The two rates approximate what the engine
needs; they tell templates far below its limit from templates far above it. -/
def partSize : Part → Nat
  | .literal text => 32 * text.utf8ByteSize
  | .expression _ => 530

/-- The approximate size of a template's compiled regular expression, in bytes. -/
def compiledSize (t : Template) : Nat := t.parts.foldl (fun n p => n + partSize p) 0

/-- Whether the regular expression of a template can be compiled. Near the limit, where the
approximate size is no guide, the engine may decide otherwise. -/
def Fits (t : Template) : Prop := t.compiledSize ≤ sizeLimit

instance : DecidablePred Fits := fun t => inferInstanceAs (Decidable (t.compiledSize ≤ sizeLimit))

/-- One event for each pair of adjacent variables. -/
def warnings (t : Template) : List Event :=
  let text := t.text
  t.adjacent.map fun (left, right) => .adjacent text left.name.text right.name.text

/-- Accepts a template if its regular expression can be compiled; the warnings come first. -/
def certify (t : Template) : Logged (Except TemplateError Template) := do
  Logged.emitAll t.warnings
  if t.Fits then
    Logged.emit (.compiled t.text t.pattern)
    return .ok t
  else
    return .error ⟨t.text, .tooLarge⟩

/-! ## From text -/

def compile (s : String) : Logged (Except TemplateError Template) :=
  match scan s.toList with
  | .ok t => t.certify
  | .error fault => return .error ⟨s, fault⟩

end Template

/-! ## Step by step -/

/-- A sequence of parts to be built into a template. -/
structure Draft where
  steps : Array Part := #[]
  deriving DecidableEq

namespace Draft

/-- Appends literal text. A brace in it is refused when the template is built. -/
def literal (d : Draft) (text : String) : Draft := ⟨d.steps.push (.literal text)⟩

def slot (d : Draft) (v : Variable) : Draft := ⟨d.steps.push (.expression v)⟩

/-- Appends the variable that an expression writes. -/
def expression (d : Draft) (text : String) : Except VariableFault Draft :=
  (Variable.parse text).map d.slot

def text (d : Draft) : String := Part.textOf d.steps.toList

def build (d : Draft) : Logged (Except TemplateError Template) :=
  match Template.ofParts d.steps.toList with
  | .ok t => t.certify
  | .error fault => return .error ⟨d.text, fault⟩

end Draft

end UriTemplate
