import UriTemplate.Template.Basic

/-!
# Matching URIs

A URI matches a template when it can be cut into one segment for each part, each covered by its part.
Of all such cuts the greedy one counts: the first variable takes the longest value that still lets
the rest match, then the second, and so on.

The matcher goes through the parts once and keeps, for every place of the candidate that the parts so
far can end at, the greedy way to get there (`Reading`). The readings stand in the order of
preference, which is also the order of their places, the farthest first: digits of a triple are
values of their own, so two walks that start at different places fall into step, and a later reading
adds only places up to where the one before it started. One pass over the candidate for each part is
therefore enough.
-/

namespace UriTemplate

/-- A way to read the beginning of a candidate. -/
structure Reading where
  place : Nat := 0
  rest : List Char
  /-- The segments taken by variables, the last one first, each spelled backwards. -/
  taken : List (List Char) := []
  deriving DecidableEq, Repr

namespace Reading

def literal (r : Reading) (text : List Char) : Option Reading :=
  (text.isPrefixOf? r.rest).map fun rest => { r with place := r.place + text.length, rest }

/-- Adds to `found` every end of a value that goes on from `word` with the characters `rest`, of
which at most `room` may be read. Ends farther away come first. -/
def ends (taken : List (List Char)) (found : List Reading) (place : Nat) (word : List Char)
    (room : Nat) (rest : List Char) : List Reading :=
  match rest with
  | [] => found
  | c :: cs =>
    if isUnreserved c && 1 ≤ room then
      ends taken (⟨place + 1, cs, (c :: word) :: taken⟩ :: found) (place + 1) (c :: word)
        (room - 1) cs
    else
      match cs with
      | hi :: lo :: cs =>
        if c == percentMark && isHexDigit hi && isHexDigit lo && 3 ≤ room then
          ends taken (⟨place + 3, cs, (lo :: hi :: c :: word) :: taken⟩ :: found) (place + 3)
            (lo :: hi :: c :: word) (room - 3) cs
        else found
      | _ => found

/-- Reads a value that ends no farther than `limit`, in all ways, the longest first. -/
def values (r : Reading) (limit : Nat) : List Reading :=
  ends r.taken [] r.place [] (limit - r.place) r.rest

/-- Reads a value from each reading; what a reading can reach beyond the start of the one before it,
that one has reached already. -/
def valueEach (candidateLength : Nat) (rs : List Reading) : List Reading :=
  ((candidateLength :: rs.map place).zip rs).flatMap fun (limit, r) => r.values limit

/-- Reads a literal and the value after it. -/
def field (candidateLength : Nat) (rs : List Reading) (f : Field) : List Reading :=
  valueEach candidateLength (rs.filterMap (·.literal f.before.text.toList))

end Reading

namespace Template

/-- The segments that the variables of a template take from a candidate, or none if it does not
match. -/
def segments? (t : Template) (candidate : List Char) : Option (List (List Char)) :=
  let readings := t.fields.foldl (Reading.field candidate.length) [{ rest := candidate }]
  let ends := readings.filterMap (·.literal t.tail.text.toList)
  (ends.find? (·.rest.isEmpty)).map fun r => (r.taken.map List.reverse).reverse

def accepts (t : Template) (candidate : String) : Bool := (t.segments? candidate.toList).isSome

end Template

end UriTemplate
