/-!
# Log events

What the library tells about its work besides its answers. `Logged α` is an answer together with
the events that led to it, first event first; it is a monad, so the events of a longer piece of work
come in the order of its steps.
-/

namespace UriTemplate

/-- How much attention an event asks for. -/
inductive Level where
  | trace
  | debug
  | warn
  deriving DecidableEq, Repr

def Level.label : Level → String
  | trace => "TRACE"
  | debug => "DEBUG"
  | warn => "WARN"

inductive Event where
  /-- Two variables of a template follow one another without text between them. -/
  | adjacent (template left right : String)
  /-- A template compiled to a regular expression. -/
  | compiled (template pattern : String)
  /-- A candidate is no URI of a template. -/
  | rejected (template candidate : String)
  deriving DecidableEq, Repr

namespace Event

def level : Event → Level
  | adjacent .. => .warn
  | compiled .. => .trace
  | rejected .. => .debug

def message : Event → String
  | adjacent .. => "adjacent variables have no separator; the left one takes the longest value"
  | compiled .. => "compiled URI pattern"
  | rejected .. => "URI does not match pattern"

/-- The particulars of an event, each with its key. -/
def details : Event → List (String × String)
  | adjacent template left right => [("template", template), ("left", left), ("right", right)]
  | compiled template pattern => [("template", template), ("pattern", pattern)]
  | rejected template candidate => [("template", template), ("candidate", candidate)]

end Event

/-- An answer and the events that led to it. -/
structure Logged (α : Type) where
  value : α
  events : List Event := []
  deriving DecidableEq, Repr

namespace Logged

def emit (e : Event) : Logged Unit := ⟨(), [e]⟩

def emitAll (es : List Event) : Logged Unit := ⟨(), es⟩

instance : Monad Logged where
  pure a := ⟨a, []⟩
  bind x f := ⟨(f x.value).value, x.events ++ (f x.value).events⟩

variable {α β : Type}

@[simp] theorem value_pure (a : α) : (pure a : Logged α).value = a := rfl

@[simp] theorem events_pure (a : α) : (pure a : Logged α).events = [] := rfl

@[simp] theorem value_bind (x : Logged α) (f : α → Logged β) :
    (x >>= f).value = (f x.value).value := rfl

@[simp] theorem events_bind (x : Logged α) (f : α → Logged β) :
    (x >>= f).events = x.events ++ (f x.value).events := rfl

@[simp] theorem events_emit (e : Event) : (emit e).events = [e] := rfl

@[simp] theorem events_emitAll (es : List Event) : (emitAll es).events = es := rfl

end Logged

end UriTemplate
