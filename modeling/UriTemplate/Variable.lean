import UriTemplate.Bindings
import UriTemplate.Encoded
import UriTemplate.Name
import UriTemplate.Percent.Codec

/-!
# Variables

A variable has a name, perhaps a default, which is kept as written, and perhaps a type, which is no
part of its text. It stands for two texts: its *value*, which is plain, and its *expansion*, which
is percent-encoded.
-/

namespace UriTemplate

/-- A place in a template that takes a value. -/
structure Variable where
  name : Name
  default : Option Encoded := none
  type : Option Name := none
  deriving DecidableEq

inductive VariableFault where
  | badName (name : String) (fault : NameFault)
  /-- The default is outside the encoded grammar from byte `position` on. -/
  | badDefault (default : String) (position : Nat)
  deriving DecidableEq, Repr

def VariableFault.message : VariableFault → String
  | badName name fault => fault.variableMessage name
  | badDefault default position =>
    s!"invalid default '{default}' at position {position}; " ++
      "only unreserved characters and percent-encoded triples allowed"

namespace Variable

/-! ## Reading and printing -/

/-- A variable from the texts of its name and default; the name is checked first. -/
def ofTexts? (name : String) (default : Option String) : Except VariableFault Variable :=
  match Name.ofString? name with
  | .error fault => .error (.badName name fault)
  | .ok name =>
    match default with
    | none => .ok { name }
    | some text =>
      match Encoded.ofString? text with
      | .error position => .error (.badDefault text position)
      | .ok default => .ok { name, default := some default }

/-- Reads `name` or `name=default`; the first `=` ends the name. -/
def parse (expression : String) : Except VariableFault Variable :=
  let cs := expression.toList
  let name := String.ofList (cs.takeWhile (· != defaultMark))
  match cs.dropWhile (· != defaultMark) with
  | [] => ofTexts? name none
  | _ :: default => ofTexts? name (some (String.ofList default))

/-- The expression that a variable is written as. The type has no written form. -/
def text (v : Variable) : String :=
  match v.default with
  | none => v.name.text
  | some default => v.name.text ++ defaultMark.toString ++ default.text

instance : ToString Variable := ⟨text⟩

def withType (v : Variable) (type : Name) : Variable := { v with type := some type }

/-! ## What a variable stands for -/

variable {α : Type} [Bindings α]

/-- The plain value: the text bound to the name, else the decoded default, else nothing. -/
def value (v : Variable) (bindings : α) : String :=
  match Bindings.nonEmpty? bindings v.name.text with
  | some text => text
  | none => (v.default.map (fun default => Percent.decode default.text)).getD ""

/-- The encoded form: the bound text encoded, else the default with uppercase digits, else
nothing. A default is encoded already and is not decoded on the way. -/
def expansion (v : Variable) (bindings : α) : String :=
  match Bindings.nonEmpty? bindings v.name.text with
  | some text => Percent.encode text
  | none => (v.default.map (fun default => Percent.normalize default.text)).getD ""

end Variable

end UriTemplate
