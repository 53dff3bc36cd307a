import UriTemplate.Variable

/-!
# Parts

What a template is a sequence of: literal text, and expressions that hold a variable. Each part has
a written form, an expansion, a test for the segments of a URI that it covers, and a fragment of the
regular expression that describes them.
-/

namespace UriTemplate

inductive Part where
  | literal (text : String)
  /-- A variable in braces. -/
  | expression (v : Variable)
  deriving DecidableEq

namespace Part

/-! ## Written form -/

def text : Part → String
  | literal text => text
  | expression v => expressionStart.toString ++ v.text ++ expressionEnd.toString

def slot? : Part → Option Variable
  | literal _ => none
  | expression v => some v

/-! ## As a regular expression -/

/-- The characters that mean something in a regular expression. -/
def isMeta (c : Char) : Bool := "\\.+*?()|[]\x7b\x7d^$#&-~".toList.contains c

/-- A text as a regular expression for that text alone. -/
def escape (s : String) : String :=
  String.ofList (s.toList.flatMap fun c => if isMeta c then ['\\', c] else [c])

/-- The regular expression for a value. -/
def valuePattern : String := "(?:[A-Za-z0-9._~-]|%[0-9A-Fa-f]\x7b2\x7d)+"

/-- The fragment of a part: an expression is a group that captures a value. -/
def pattern : Part → String
  | literal text => escape text
  | expression _ => "(" ++ valuePattern ++ ")"

/-! ## Segments of a URI -/

/-- The segments that a part covers. -/
def Covers : Part → List Char → Prop
  | literal text, segment => segment = text.toList
  | expression _, segment => IsValue segment

instance (p : Part) : DecidablePred p.Covers := fun segment =>
  match p with
  | literal text => inferInstanceAs (Decidable (segment = text.toList))
  | expression _ => inferInstanceAs (Decidable (IsValue segment))

def accepts (p : Part) (segment : String) : Bool := decide (p.Covers segment.toList)

/-- The segment that a part becomes under bindings. -/
def expansion {α : Type} [Bindings α] (p : Part) (bindings : α) : String :=
  match p with
  | literal text => text
  | expression v => v.expansion bindings

end Part

end UriTemplate
