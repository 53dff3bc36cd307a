import UriTemplate.Proofs.Regex.Agreement

/-!
# The shape of a template

Its literals and the places of its variables, whatever these are called (`Template.shape`). The
pattern of a template says this much and no more (`Template.pattern_eq_iff`):

* it is put together from the shape (`Template.pattern_eq`);
* the shape is seen in the items that the pattern is read as (`Regex.shapeOf_items`). Escaped text
  is read as its characters, so nothing that a literal holds is taken for a variable or for the end
  of one; and as no literal is empty or follows another, a run of characters is one literal.

So templates of one shape match the same URIs, and their variables take the same segments.
-/

namespace UriTemplate

/-- The text of a literal. -/
def Part.literal? : Part → Option String
  | literal text => some text
  | expression _ => none

/-- The literals in order, with a gap for each variable. -/
def Template.shape (t : Template) : List (Option String) := t.parts.map Part.literal?

namespace Regex

/-! ## From the shape to the pattern -/

/-- The fragment of a literal or of a gap. -/
def fragment : Option String → String
  | some text => Part.escape text
  | none => "(" ++ Part.valuePattern ++ ")"

theorem fragment_literal? (p : Part) : fragment p.literal? = p.pattern := by
  cases p <;> rfl

/-! ## From the pattern to the shape -/

theorem all_inj {es es' : List Regex} (h : all es = all es') : es = es' := by
  induction es generalizing es' with
  | nil =>
    cases es' with
    | nil => rfl
    | cons e' es' => cases h
  | cons e es ih =>
    cases es' with
    | nil => cases h
    | cons e' es' =>
      obtain ⟨rfl, htail⟩ := Regex.seq.inj h
      rw [ih htail]

/-- A character in front of a shape belongs to the literal there, if there is one. -/
def consChar (c : Char) : List (Option String) → List (Option String)
  | some text :: rest => some (.ofList (c :: text.toList)) :: rest
  | rest => some (.ofList [c]) :: rest

/-- The shape that items have: a run of characters is a literal, anything else is a gap. -/
def shapeOf : List Regex → List (Option String)
  | [] => []
  | char c :: es => consChar c (shapeOf es)
  | _ :: es => none :: shapeOf es

theorem consChar_of_no_literal {rest : List (Option String)}
    (h : ∀ next, rest.head? ≠ some (some next)) (c : Char) :
    consChar c rest = some (.ofList [c]) :: rest := by
  unfold consChar
  split
  · rename_i next rest
    exact absurd rfl (h next)
  · rfl

theorem shapeOf_chars {es : List Regex} (h : ∀ next, (shapeOf es).head? ≠ some (some next))
    (c : Char) (cs : List Char) :
    shapeOf ((c :: cs).map .char ++ es) = some (.ofList (c :: cs)) :: shapeOf es := by
  induction cs generalizing c with
  | nil => exact consChar_of_no_literal h c
  | cons d cs ih =>
    show consChar c (shapeOf ((d :: cs).map .char ++ es)) = _
    rw [ih d, consChar, String.toList_ofList]

theorem shapeOf_text {text : String} (htext : text ≠ "") {es : List Regex}
    (h : ∀ next, (shapeOf es).head? ≠ some (some next)) :
    shapeOf (text.toList.map .char ++ es) = some text :: shapeOf es := by
  cases hcs : text.toList with
  | nil => exact absurd (String.toList_eq_nil_iff.1 hcs) htext
  | cons c cs => rw [shapeOf_chars h, ← hcs, String.ofList_toList]

/-- The items of a normal sequence of parts show its shape. -/
theorem shapeOf_items {ps : List Part} (h : Part.IsNormal ps) (groups : Nat) :
    shapeOf (items groups ps) = ps.map Part.literal? := by
  induction ps generalizing groups with
  | nil => rfl
  | cons p ps ih =>
    cases p with
    | expression v =>
      show none :: shapeOf (items (groups + 1) ps) = _
      rw [ih h]
      rfl
    | literal text =>
      obtain ⟨hne, -, hnext, hps⟩ := h
      -- what follows a literal is a variable or the end, so the run of characters stops there
      have hhead : ∀ next, (shapeOf (items groups ps)).head? ≠ some (some next) := by
        intro next hsome
        rw [ih hps, List.head?_map, Option.map_eq_some_iff] at hsome
        obtain ⟨p, hp, hliteral⟩ := hsome
        cases p with
        | literal text =>
          cases hliteral
          exact hnext _ hp
        | expression v => cases hliteral
      rw [items, shapeOf_text hne hhead, ih hps]
      rfl

end Regex

namespace Template

open Regex

theorem pattern_eq (t : Template) :
    t.pattern = "^" ++ String.join (t.shape.map fragment) ++ "$" := by
  rw [pattern, shape, List.map_map]
  have hparts : t.parts.map (fragment ∘ Part.literal?) = t.parts.map Part.pattern :=
    List.map_congr_left fun p _ => fragment_literal? p
  rw [hparts]

theorem pattern_eq_of_shape_eq {t u : Template} (h : t.shape = u.shape) :
    t.pattern = u.pattern := by
  rw [t.pattern_eq, u.pattern_eq, h]

theorem shape_eq_of_pattern_eq {t u : Template} (h : t.pattern = u.pattern) :
    t.shape = u.shape := by
  have hread := read_pattern t
  rw [h, read_pattern u, Option.some.injEq, Program.mk.injEq] at hread
  have hitems : items 0 u.parts = items 0 t.parts :=
    List.append_cancel_right (List.cons.inj (all_inj hread.1)).2
  rw [shape, shape, ← shapeOf_items t.isNormal_parts 0, ← shapeOf_items u.isNormal_parts 0, hitems]

/-- Templates of one shape take the same segments from a candidate: the search for their pattern
captures the same. -/
theorem segments?_eq_of_shape_eq {t u : Template} (h : t.shape = u.shape) (cs : List Char) :
    t.segments? cs = u.segments? cs := by
  obtain ⟨program, hread, hcaptures⟩ := t.captures_pattern
  obtain ⟨program', hread', hcaptures'⟩ := u.captures_pattern
  rw [pattern_eq_of_shape_eq h, hread', Option.some.injEq] at hread
  subst hread
  -- one program, so what it captures is what either template takes
  have hsome := (hcaptures cs).symm.trans (hcaptures' cs)
  have hinj : ∀ vs ws : List (List Char), vs.map some = ws.map some → vs = ws := by
    intro vs ws
    exact (List.map_inj_right fun _ _ => Option.some.inj).1
  exact (Option.map_inj_right hinj).1 hsome

/-- The pattern determines the shape: the same number of parts, and at each place literals of one
text or two variables. So templates that differ only in the names, defaults and types of their
variables accept the same candidates and take the same segments from them. -/
theorem pattern_eq_iff (t u : Template) :
    (t.pattern = u.pattern ↔ t.shape = u.shape) ∧
    (t.shape = u.shape → ∀ candidate : String, t.accepts candidate = u.accepts candidate ∧
      t.segments? candidate.toList = u.segments? candidate.toList) := by
  refine ⟨⟨shape_eq_of_pattern_eq, pattern_eq_of_shape_eq⟩, fun h candidate => ?_⟩
  have hsegments := segments?_eq_of_shape_eq h candidate.toList
  exact ⟨by rw [accepts, accepts, hsegments], hsegments⟩

/-- `/v1.(0){day=1}`, where the variable has a type. -/
def dated : Template :=
  ⟨[⟨⟨"/v1.(0)", by decide⟩,
    ⟨⟨"day", by decide⟩, some ⟨"1", by decide⟩, some ⟨"date", by decide⟩⟩⟩], .empty⟩

/-- `/v1.(0){number}` -/
def numbered : Template := ⟨[⟨⟨"/v1.(0)", by decide⟩, { name := ⟨"number", by decide⟩ }⟩], .empty⟩

/-- A literal that looks like a pattern with a group. -/
def groupLike : Template := ⟨[], ⟨"/v1.(0)((?:[a-z])+)", by decide⟩⟩

theorem pattern_eq_iff_dated :
    dated.shape = numbered.shape ∧ dated.pattern = numbered.pattern ∧
    dated.accepts "/v1.(0)a%2f" = numbered.accepts "/v1.(0)a%2f" ∧
    dated.segments? "/v1.(0)a%2f".toList = numbered.segments? "/v1.(0)a%2f".toList ∧
    groupLike.pattern ≠ numbered.pattern := by
  have hshape : dated.shape = numbered.shape := by decide
  have hother : groupLike.shape ≠ numbered.shape := by decide
  obtain ⟨hpattern, hsame⟩ := pattern_eq_iff dated numbered
  obtain ⟨haccepts, hsegments⟩ := hsame hshape "/v1.(0)a%2f"
  exact ⟨hshape, hpattern.2 hshape, haccepts, hsegments, mt (pattern_eq_iff _ _).1.1 hother⟩

end Template

end UriTemplate
