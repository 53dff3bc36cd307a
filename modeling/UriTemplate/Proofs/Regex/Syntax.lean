import UriTemplate.Template.Basic

/-!
# Regular expressions as text

The syntax that patterns are written in: characters, escaped punctuation, sets between brackets,
groups that capture and groups that do not, alternatives, `+`, a fixed count, and the two anchors.
`Regex.read` refuses every other use of a punctuation mark, so a text that it reads has one meaning.

* `Reader.run_escape`: escaped text is read as its characters, whatever they are.
* `Reader.run_expression`: the fragment of a variable is read as a group around `valueRegex`.
* `Regex.read_pattern`: hence the pattern of a template is read part by part.
-/

namespace UriTemplate

inductive Regex where
  | empty
  | char (c : Char)
  /-- One character of a union of ranges, ends included. -/
  | oneOf (ranges : List (Char × Char))
  | start
  /-- The very end of the text. -/
  | stop
  | seq (a b : Regex)
  /-- The first alternative is preferred. -/
  | either (a b : Regex)
  /-- One or more times, more preferred. -/
  | plus (a : Regex)
  | times (n : Nat) (a : Regex)
  /-- Captures what `a` matches; groups count from one, by their opening parentheses. -/
  | group (index : Nat) (a : Regex)
  deriving DecidableEq, Repr

namespace Regex

def all (items : List Regex) : Regex := items.foldr .seq .empty

/-! ## Reading -/

/-- What stands inside a parenthesis, or at the top: the alternatives before the current one and the
items of the current one, the last ones first. -/
structure Level where
  /-- The index of the group that the parenthesis opens, if it captures. -/
  index : Option Nat := none
  choices : List Regex := []
  items : List Regex := []

namespace Level

def regex (l : Level) : Regex := l.choices.foldl (fun r e => .either e r) (all l.items.reverse)

def close (l : Level) : Regex :=
  match l.index with
  | some index => .group index l.regex
  | none => l.regex

def add (l : Level) (e : Regex) : Level := { l with items := e :: l.items }

end Level

/-- What the next character belongs to. -/
inductive Mode where
  | item
  | escape
  | opened
  /-- After an opening parenthesis and a question mark. -/
  | modifier
  /-- Inside brackets, with the ranges so far, a character that may begin a range, and whether a
  dash follows it. -/
  | set (ranges : List (Char × Char)) (last : Option Char) (dash : Bool)
  /-- Inside braces, with the number so far. -/
  | count (n : Option Nat)

structure Reader where
  mode : Mode := .item
  /-- The number of groups opened. -/
  groups : Nat := 0
  inner : Level := {}
  /-- The levels around the inner one, the innermost first. -/
  outer : List Level := []

namespace Reader

def add (s : Reader) (e : Regex) : Reader := { s with mode := .item, inner := s.inner.add e }

def push (s : Reader) (index : Option Nat) : Reader :=
  { s with mode := .item, inner := { index }, outer := s.inner :: s.outer }

def onLast (s : Reader) (f : Regex → Regex) : Option Reader :=
  match s.inner.items with
  | [] => none
  | e :: es => some { s with mode := .item, inner := { s.inner with items := f e :: es } }

/-- Reads a character where an item may stand. -/
def item (s : Reader) (c : Char) : Option Reader :=
  if c = '\\' then some { s with mode := .escape }
  else if c = '(' then some { s with mode := .opened }
  else if c = '[' then some { s with mode := .set [] none false }
  else if c = '\x7b' then some { s with mode := .count none }
  else if c = ')' then
    match s.outer with
    | [] => none
    | l :: ls => some { s with inner := l.add s.inner.close, outer := ls }
  else if c = '|' then
    some { s with inner := { s.inner with
      choices := all s.inner.items.reverse :: s.inner.choices, items := [] } }
  else if c = '+' then s.onLast .plus
  else if c = '^' then some (s.add .start)
  else if c = '$' then some (s.add .stop)
  else if c ∈ ['.', '*', '?', ']', '\x7d'] then none
  else some (s.add (.char c))

def set (s : Reader) (ranges : List (Char × Char)) (last : Option Char) (dash : Bool) (c : Char) :
    Option Reader :=
  let single := last.toList.map fun d => (d, d)
  if c = ']' then
    some (s.add (.oneOf (ranges ++ single ++ if dash then [('-', '-')] else [])))
  else if c ∈ ['[', '\\', '^', '&'] ∨ (c = '~' ∧ last = some '~') then none
  else if dash then
    match last with
    | some low => if low ≤ c ∧ c ≠ '-' then
        some { s with mode := .set (ranges ++ [(low, c)]) none false } else none
    | none => none
  else if c = '-' then
    if last.isSome then some { s with mode := .set ranges last true } else none
  else some { s with mode := .set (ranges ++ single) (some c) false }

/-- Punctuation may be escaped; before a letter or a digit a backslash means something else. -/
def isEscapable (c : Char) : Bool := c.toNat < 0x80 && !c.isAlphanum && c != '<' && c != '>'

def step (s : Reader) (c : Char) : Option Reader :=
  match s.mode with
  | .item => s.item c
  | .escape => if isEscapable c then some (s.add (.char c)) else none
  | .opened =>
    if c = '?' then some { s with mode := .modifier }
    else ({ s with groups := s.groups + 1 }.push (some (s.groups + 1))).item c
  | .modifier => if c = ':' then some (s.push none) else none
  | .set ranges last dash => s.set ranges last dash c
  | .count n =>
    if c.isDigit then
      some { s with mode := .count (some (n.getD 0 * 10 + (c.toNat - '0'.toNat))) }
    else if c = '\x7d' then n.bind fun n => s.onLast (.times n)
    else none

def run (s : Reader) (cs : List Char) : Option Reader := cs.foldlM step s

end Reader

structure Program where
  regex : Regex
  groups : Nat

def read (source : String) : Option Program :=
  match Reader.run {} source.toList with
  | some ⟨.item, groups, inner, []⟩ => some ⟨inner.regex, groups⟩
  | _ => none

/-! ## What patterns are read as -/

def unreservedRegex : Regex :=
  .oneOf [('A', 'Z'), ('a', 'z'), ('0', '9'), ('.', '.'), ('_', '_'), ('~', '~'), ('-', '-')]

def hexDigitRegex : Regex := .oneOf [('0', '9'), ('A', 'F'), ('a', 'f')]

def unitRegex : Regex :=
  .either (all [unreservedRegex]) (all [.char percentMark, .times 2 hexDigitRegex])

def valueRegex : Regex := .plus unitRegex

/-- The items of parts, of which the first group follows `groups` others. -/
def items : Nat → List Part → List Regex
  | _, [] => []
  | groups, .literal text :: ps => text.toList.map .char ++ items groups ps
  | groups, .expression _ :: ps => .group (groups + 1) (all [valueRegex]) :: items (groups + 1) ps

def slotCount (parts : List Part) : Nat := (parts.filterMap Part.slot?).length

@[simp] theorem slotCount_literal (text : String) (ps : List Part) :
    slotCount (.literal text :: ps) = slotCount ps := rfl

@[simp] theorem slotCount_expression (v : Variable) (ps : List Part) :
    slotCount (.expression v :: ps) = slotCount ps + 1 := rfl

namespace Reader

theorem run_append (s : Reader) (a b : List Char) : s.run (a ++ b) = (s.run a).bind (·.run b) := by
  simp [run, List.foldlM_append, bind]

def addAll (s : Reader) (es : List Regex) : Reader :=
  { s with inner := { s.inner with items := es.reverse ++ s.inner.items } }

theorem run_punctuation {s : Reader} (hs : s.mode = .item) {c : Char} (hc : Part.isMeta c) :
    s.run ['\\', c] = some (s.add (.char c)) := by
  have hall : ∀ d ∈ "\\.+*?()|[]\x7b\x7d^$#&-~".toList, isEscapable d :=
    List.all_eq_true.1 (by decide)
  have hesc : isEscapable c := hall c (List.contains_iff_mem.1 hc)
  simp [run, step, hs, item, hesc, add]

theorem run_plain {s : Reader} (hs : s.mode = .item) {c : Char} (hc : Part.isMeta c = false) :
    s.run [c] = some (s.add (.char c)) := by
  have hne : ∀ d ∈ ['\\', '(', '[', '\x7b', ')', '|', '+', '^', '$', '.', '*', '?', ']', '\x7d'],
      c ≠ d := by
    intro d hd heq
    have hmeta : Part.isMeta d := List.all_eq_true.1 (by decide) d hd
    rw [heq, hmeta] at hc
    cases hc
  simp [run, step, hs, item, hne]

theorem run_escape {s : Reader} (hs : s.mode = .item) (text : String) :
    s.run (Part.escape text).toList = some (s.addAll (text.toList.map .char)) := by
  rw [Part.escape, String.toList_ofList]
  generalize text.toList = cs
  induction cs generalizing s with
  | nil => rfl
  | cons c cs ih =>
    rw [List.flatMap_cons, run_append]
    have hc : s.run (if Part.isMeta c then ['\\', c] else [c]) = some (s.add (.char c)) := by
      cases h : Part.isMeta c with
      | true => exact run_punctuation hs h
      | false => exact run_plain hs h
    rw [hc, Option.bind_some, ih rfl]
    simp [addAll, add, Level.add, hs]

theorem run_expression (groups : Nat) (inner : Level) (outer : List Level) (v : Variable) :
    Reader.run ⟨.item, groups, inner, outer⟩ (Part.expression v).pattern.toList =
      some ⟨.item, groups + 1, inner.add (.group (groups + 1) (all [valueRegex])), outer⟩ := by
  rw [Part.pattern, Part.valuePattern, String.toList_append, String.toList_append]
  rfl

/-- Parts are read item by item, and every variable opens a group. -/
theorem run_parts (parts : List Part) : ∀ (groups : Nat) (inner : Level) (outer : List Level),
    Reader.run ⟨.item, groups, inner, outer⟩ (String.join (parts.map Part.pattern)).toList =
      some ⟨.item, groups + slotCount parts,
        { inner with items := (Regex.items groups parts).reverse ++ inner.items }, outer⟩ := by
  induction parts with
  | nil => exact fun _ _ _ => rfl
  | cons p ps ih =>
    intro groups inner outer
    rw [List.map_cons, String.join_cons, String.toList_append, run_append]
    cases p with
    | literal text =>
      have hrun := run_escape (s := ⟨.item, groups, inner, outer⟩) rfl text
      rw [Part.pattern, hrun, Option.bind_some, addAll, ih]
      simp [Regex.items]
    | expression v =>
      rw [run_expression, Option.bind_some, ih]
      simp [Regex.items, Level.add, Nat.add_assoc, Nat.add_comm 1]

end Reader

theorem read_pattern (t : Template) : read t.pattern =
    some ⟨all (.start :: items 0 t.parts ++ [.stop]), slotCount t.parts⟩ := by
  have hstart : Reader.run {} "^".toList = some ⟨.item, 0, { items := [.start] }, []⟩ := rfl
  have hstop : ∀ s : Reader, s.mode = .item → s.run "$".toList = some (s.add .stop) := by
    intro s hs
    show s.run ['$'] = _
    simp [Reader.run, Reader.step, hs, Reader.item]
  rw [read, Template.pattern, String.toList_append, String.toList_append, Reader.run_append,
    Reader.run_append, hstart, Option.bind_some, Reader.run_parts, Option.bind_some,
    hstop _ rfl]
  simp [Reader.add, Level.add, Level.regex]

end Regex

end UriTemplate
