import UriTemplate.Template.Basic
import UriTemplate.Template.Fault

/-!
# Reading a template from text

A left fold over the characters. The scanner is either in literal text or inside an expression; an
expression is checked when its closing brace is met, so the first fault from the left is reported.
`Scanner.run_append` says that reading goes on from where the first part of a text ends, hence a
fault in a prefix is the fault of every text that begins with it.
-/

namespace UriTemplate

/-- Where a scanner stands. -/
inductive Scanner where
  /-- In literal text, after what has been read. -/
  | text (read : Growing)
  /-- Inside the expression opened at byte `start`, with the characters of its body so far, the last
  one first. -/
  | expression (read : Growing) (start : Nat) (body : List Char)

namespace Scanner

/-- Closes an expression: its body is to be a variable. -/
def close (read : Growing) (start : Nat) (body : List Char) : Except TemplateFault Scanner :=
  if body.isEmpty then .error (.emptyExpression start)
  else
    match Variable.parse (String.ofList body.reverse) with
    | .ok v => .ok (.text (read.expression v))
    | .error fault => .error (.badVariable start fault)

def step (s : Scanner) (offset : Nat) (c : Char) : Except TemplateFault Scanner :=
  match s with
  | .text read =>
    if h : !isBrace c then .ok (.text (read.push c h))
    else if c = expressionStart then .ok (.expression read offset [])
    else .error (.unexpectedBrace c offset)
  | .expression read start body =>
    if !isBrace c then .ok (.expression read start (c :: body))
    else if c = expressionEnd then close read start body
    else .error (.unexpectedBrace c offset)

def run (s : Scanner) (offset : Nat) : List Char → Except TemplateFault Scanner
  | [] => .ok s
  | c :: cs =>
    match s.step offset c with
    | .ok s => s.run (offset + c.utf8Size) cs
    | .error fault => .error fault

/-- The template read, with no character left. -/
def finish : Scanner → Except TemplateFault Template
  | .text read => .ok read.finish
  | .expression _ start _ => .error (.unclosedExpression start)

/-- A run goes on from where the first part ends. -/
theorem run_append (s : Scanner) (offset : Nat) (a b : List Char) :
    s.run offset (a ++ b) =
      match s.run offset a with
      | .ok s => s.run (offset + byteLength a) b
      | .error fault => .error fault := by
  induction a generalizing s offset with
  | nil => simp [run]
  | cons c a ih =>
    simp only [List.cons_append, run, byteLength_cons]
    cases s.step offset c with
    | error fault => rfl
    | ok s' => simp only [ih, Nat.add_assoc]

end Scanner

namespace Template

/-- The template that a text writes, or the first fault. -/
def scan (cs : List Char) : Except TemplateFault Template :=
  match (Scanner.text {}).run 0 cs with
  | .ok s => s.finish
  | .error fault => .error fault

end Template

end UriTemplate
