import Std.Data.HashMap
import Std.Data.TreeMap

/-!
# Bindings

Where the values of variables come from: anything that answers which text a name is bound to. In a
list or an array of pairs the first pair with the name counts, in a map there is only one. A
reference answers as what it refers to.
-/

namespace UriTemplate

/-- A source of values for names. -/
class Bindings (α : Type) where
  /-- The text that a name is bound to, if any; it may be empty. -/
  valueOf : α → String → Option String

namespace Bindings

instance : Bindings (List (String × String)) := ⟨fun pairs name => pairs.lookup name⟩

instance : Bindings (Array (String × String)) := ⟨fun pairs name => pairs.toList.lookup name⟩

instance {n : Nat} : Bindings (Vector (String × String) n) :=
  ⟨fun pairs name => pairs.toList.lookup name⟩

instance : Bindings (Std.HashMap String String) := ⟨fun map name => map[name]?⟩

instance : Bindings (Std.TreeMap String String) := ⟨fun map name => map[name]?⟩

/-- A function on names, for a source of any other kind. -/
instance : Bindings (String → Option String) := ⟨fun f name => f name⟩

variable {α : Type} [Bindings α]

/-- A reference to a source of bindings. -/
structure Ref (α : Type) where
  source : α

instance : Bindings (Ref α) := ⟨fun ref name => valueOf ref.source name⟩

/-- The text that a name is bound to when it is not empty. An empty text counts as missing. -/
def nonEmpty? (bindings : α) (name : String) : Option String :=
  (valueOf bindings name).filter (fun text => !text.isEmpty)

end Bindings

end UriTemplate
