import UriTemplate.Log
import UriTemplate.Matching

/-!
# Resolving URIs

Resolving a candidate gives each variable of a template the value it has there, decoded. A name used
more than once has the value of its last use. A resolution is itself a source of bindings.
-/

namespace UriTemplate

inductive Status where
  | unresolved
  | resolved
  | error
  deriving DecidableEq, Repr, Inhabited

def Status.label : Status → String
  | unresolved => "unresolved"
  | resolved => "resolved"
  | error => "error"

/-- The values that a template's variables have in a candidate. -/
structure Resolution where
  template : Template
  status : Status := default
  values : Std.TreeMap String String := ∅

namespace Resolution

def get? (r : Resolution) (name : String) : Option String := r.values[name]?

/-- The names and their values, ordered by name. -/
def toList (r : Resolution) : List (String × String) := r.values.toList

def names (r : Resolution) : List String := r.values.keys

def size (r : Resolution) : Nat := r.values.size

def isEmpty (r : Resolution) : Bool := r.values.isEmpty

def isResolved (r : Resolution) : Bool := r.status == .resolved

/-- Two resolutions are the same when status, values and templates are. -/
instance : BEq Resolution :=
  ⟨fun a b => a.status == b.status && a.toList == b.toList && a.template == b.template⟩

instance : Bindings Resolution := ⟨get?⟩

/-- Each name bound to its segment, decoded; a later use of a name takes the place of an earlier
one. -/
def bind (names : List String) (segments : List (List Char)) : Std.TreeMap String String :=
  (names.zip segments).foldl
    (fun values (name, segment) =>
      values.insert name (String.ofList (Percent.decodeChars segment))) ∅

/-- The resolution of a candidate from which the variables of a template take given segments. -/
def ofSegments (t : Template) (segments : List (List Char)) : Resolution where
  template := t
  status := .resolved
  values := bind t.names segments

end Resolution

namespace Template

/-- Resolves a candidate; an event tells of one that does not match. -/
def resolve (t : Template) (candidate : String) : Logged Resolution :=
  match t.segments? candidate.toList with
  | some segments => return .ofSegments t segments
  | none => do
    Logged.emit (.rejected t.text candidate)
    return { template := t, status := .error }

end Template

end UriTemplate
