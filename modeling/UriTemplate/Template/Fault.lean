import UriTemplate.Variable

/-!
# Faults of templates

Why a text or a sequence of parts is refused as a template. Positions count bytes of the whole
template, and a fault in an expression stands where its opening brace does.
-/

namespace UriTemplate

inductive TemplateFault where
  /-- The expression opened at `position` has no closing brace. -/
  | unclosedExpression (position : Nat)
  /-- A brace that opens inside an expression, or closes outside one. -/
  | unexpectedBrace (c : Char) (position : Nat)
  /-- There is nothing between the braces. -/
  | emptyExpression (position : Nat)
  /-- What stands between the braces is no variable. -/
  | badVariable (position : Nat) (fault : VariableFault)
  /-- The regular expression of the template is too large to be compiled. -/
  | tooLarge
  deriving DecidableEq, Repr

/-- A refused template: its text and the first fault. -/
structure TemplateError where
  input : String
  fault : TemplateFault
  deriving DecidableEq, Repr

/-- The largest size of a compiled regular expression, in bytes. -/
def sizeLimit : Nat := 10485760

/-- What the engine reports of a regular expression that is too large. -/
def tooLargeReason : String := s!"Compiled regex exceeds size limit of {sizeLimit} bytes."

namespace TemplateFault

def message : TemplateFault → String
  | unclosedExpression position => s!"expression opened at position {position} is never closed"
  | unexpectedBrace c position => s!"unexpected '{c}' at position {position}"
  | emptyExpression position => s!"empty expression at position {position}"
  | badVariable position fault => s!"invalid variable at position {position}: {fault.message}"
  | tooLarge => s!"could not build matching pattern: {tooLargeReason}"

def source? : TemplateFault → Option VariableFault
  | badVariable _ fault => some fault
  | _ => none

end TemplateFault

def TemplateError.message (e : TemplateError) : String :=
  s!"failed to compile URI template '{e.input}': {e.fault.message}"

end UriTemplate
