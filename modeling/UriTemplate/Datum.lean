import UriTemplate.Decimal.Layout
import UriTemplate.Decimal.Numeral
import UriTemplate.Decimal.Shortest
import UriTemplate.Template.Compile

/-!
# Data from outside

Templates, variables and types travel in data formats as plain text. Reading one takes a datum of
any kind: all but text is refused by its kind, and text is read by the grammar.
-/

namespace UriTemplate

/-- A datum as far as its kind matters. -/
inductive Datum where
  | null
  | boolean (b : Bool)
  | integer (n : Int)
  | real (x : Float)
  | text (s : String)
  | sequence
  | mapping

namespace Datum

/-- The number that a numeral writes: an integer if it is one, else a real number. -/
def ofNumeral (s : String) : Datum :=
  let n := Numeral.ofString s
  match n.integer? with
  | some i => integer i
  | none => real n.real

/-- Real numbers from `0.00001` up to sixteen digits before the point are written positionally. -/
def realLayout : Layout := { least := -5, greatest := 15 }

/-- A real number by its shortest decimal. -/
def realText (x : Float) : String :=
  let bits := x.toBits
  let sign := if bits.toNat < Nat.pow 2 63 then "" else "-"
  match Binary.ofBits? bits with
  | some x => sign ++ realLayout.write x.shortest.1 x.shortest.2
  | none => sign ++ "0.0"

/-- What a datum is called where it does not belong. -/
def description : Datum → String
  | null => "null"
  | boolean b => s!"boolean `{b}`"
  | integer n => s!"integer `{n}`"
  | real x => s!"floating point `{realText x}`"
  | text s => s!"string {s.quote}"
  | sequence => "sequence"
  | mapping => "map"

end Datum

/-- Why a datum is refused. -/
inductive ReadFault (ε : Type) where
  /-- The datum is no text. -/
  | wrongKind (found : Datum)
  /-- The text does not obey the grammar. -/
  | refused (cause : ε)

def ReadFault.message {ε : Type} (causeMessage : ε → String) : ReadFault ε → String
  | wrongKind found => s!"invalid type: {found.description}, expected a string"
  | refused cause => causeMessage cause

def Template.ofDatum : Datum → Logged (Except (ReadFault TemplateError) Template)
  | .text s => do return (← Template.compile s).mapError .refused
  | found => return .error (.wrongKind found)

def Variable.ofDatum : Datum → Except (ReadFault VariableFault) Variable
  | .text s => (Variable.parse s).mapError .refused
  | found => .error (.wrongKind found)

def Name.ofDatum : Datum → Except (ReadFault NameFault) Name
  | .text s => (Name.ofString? s).mapError .refused
  | found => .error (.wrongKind found)

end UriTemplate
