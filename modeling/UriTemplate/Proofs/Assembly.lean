import UriTemplate.Proofs.Grammar.Scanning
import UriTemplate.Template.Assembly

/-!
# Assembling parts

What putting parts together gives, for any sequence of parts:

* `Growing.exists_parts`: without a brace in a literal it succeeds, and what is put together is
  written as the parts one after the other and has their variables.
* `Growing.parts_of_brace`: otherwise the first brace in a literal is reported, at the number of
  bytes before it.
* `Growing.parts_regroup`: a run of literals does the same as one literal with their joined text,
  wherever the run stands.

All three follow from `Growing.parts_append`: assembling goes on from where the first parts end.
-/

namespace UriTemplate

theorem byteLength_toList (s : String) : byteLength s.toList = s.utf8ByteSize := by
  have hbytes : ∀ cs : List Char, (String.ofList cs).utf8ByteSize = byteLength cs := by
    intro cs
    induction cs with
    | nil => rfl
    | cons c cs ih =>
      rw [String.ofList_cons, String.utf8ByteSize_append, String.utf8ByteSize_singleton, ih,
        byteLength_cons]
  rw [← hbytes, String.ofList_toList]

/-! ## Braces in a text -/

theorem exists_first_brace {cs : List Char} (h : ¬ IsPlain cs) :
    ∃ x c y, cs = x ++ c :: y ∧ IsPlain x ∧ isBrace c := by
  cases hfind : cs.find? isBrace with
  | none => exact absurd (fun c hc => by simpa using List.find?_eq_none.1 hfind c hc) h
  | some c =>
    obtain ⟨hc, x, y, rfl, hx⟩ := List.find?_eq_some_iff_append.1 hfind
    exact ⟨x, c, y, rfl, hx, hc⟩

namespace Literal

theorem fault?_append {x y : List Char} {c : Char} (hx : IsPlain x) (hc : isBrace c) :
    fault? (x ++ c :: y) = some (c, byteLength x) := by
  have hfind : (x ++ c :: y).find? isBrace = some c :=
    List.find?_eq_some_iff_append.2 ⟨hc, x, y, rfl, hx⟩
  rw [fault?, hfind, List.takeWhile_append_of_pos hx]
  simp [hc]

/-- The first brace of a text is what reading it as a literal reports. -/
theorem ofString?_of_brace {s : String} {x y : List Char} {c : Char} (hs : s.toList = x ++ c :: y)
    (hx : IsPlain x) (hc : isBrace c) : ofString? s = .error (c, byteLength x) := by
  rw [ofString?_eq_error, hs, fault?_append hx hc]

end Literal

/-! ## Texts of parts -/

namespace Part

theorem textOf_cons (p : Part) (ps : List Part) : textOf (p :: ps) = p.text ++ textOf ps := by
  rw [textOf, List.map_cons, String.join_cons]
  rfl

/-- No literal of a sequence of parts holds a brace. -/
def IsBraceFree (ps : List Part) : Prop := ∀ text, .literal text ∈ ps → IsPlain text.toList

theorem isBraceFree_cons {p : Part} {ps : List Part} :
    IsBraceFree (p :: ps) ↔ (∀ text, p = .literal text → IsPlain text.toList) ∧ IsBraceFree ps := by
  simp only [IsBraceFree, List.mem_cons, or_imp, forall_and, eq_comm]

end Part

namespace Growing

/-! ## One part after the other -/

theorem written_literal (g : Growing) (l : Literal) :
    (g.literal l).written = g.written ++ l.text.toList := by
  rw [written_eq, written_eq]
  simp [literal]

theorem parts_literal (g : Growing) (l : Literal) (offset : Nat) (ps : List Part) :
    g.parts offset (.literal l.text :: ps) =
      (g.literal l).parts (offset + byteLength l.text.toList) ps := by
  rw [parts, Literal.ofString?_eq_ok.2 rfl, byteLength_toList]

theorem parts_expression (g : Growing) (v : Variable) (offset : Nat) (ps : List Part) :
    g.parts offset (.expression v :: ps) =
      (g.expression v).parts (offset + byteLength (Part.expression v).text.toList) ps := by
  rw [parts, byteLength_toList]

theorem parts_literal_of_brace {text : String} {x y : List Char} {c : Char}
    (htext : text.toList = x ++ c :: y) (hx : IsPlain x) (hc : isBrace c) (g : Growing)
    (offset : Nat) (ps : List Part) :
    g.parts offset (.literal text :: ps) =
      .error (.unexpectedBrace c (offset + byteLength x)) := by
  rw [parts, Literal.ofString?_of_brace htext hx hc]

/-- A text is a literal, or it has a first brace. -/
theorem literal_or_brace (text : String) : (∃ l : Literal, l.text = text) ∨
    ∃ x c y, text.toList = x ++ c :: y ∧ IsPlain x ∧ isBrace c := by
  by_cases h : IsPlain text.toList
  · exact .inl ⟨⟨text, h⟩, rfl⟩
  · exact .inr (exists_first_brace h)

theorem parts_append (g : Growing) (offset : Nat) (a b : List Part) :
    g.parts offset (a ++ b) =
      match g.parts offset a with
      | .ok g => g.parts (offset + byteLength (Part.textOf a).toList) b
      | .error fault => .error fault := by
  induction a generalizing g offset with
  | nil => rfl
  | cons p a ih =>
    rw [List.cons_append, Part.textOf_cons, String.toList_append, byteLength_append,
      ← Nat.add_assoc]
    cases p with
    | literal text =>
      -- a brace ends both runs at one place
      rcases literal_or_brace text with ⟨l, rfl⟩ | ⟨x, c, y, htext, hx, hc⟩
      · rw [parts_literal, parts_literal, ih]
        rfl
      · rw [parts_literal_of_brace htext hx hc, parts_literal_of_brace htext hx hc]
    | expression v =>
      rw [parts_expression, parts_expression, ih]

/-! ## Success and failure -/

/-- Without braces in literals the parts are put together: they are written one after the other,
and their variables come in order. -/
theorem exists_parts {ps : List Part} (h : Part.IsBraceFree ps) (g : Growing) (offset : Nat) :
    ∃ g', g.parts offset ps = .ok g' ∧ g'.written = g.written ++ (Part.textOf ps).toList ∧
      g'.finish.slots = g.finish.slots ++ ps.filterMap Part.slot? := by
  induction ps generalizing g offset with
  | nil => exact ⟨g, rfl, (List.append_nil _).symm, (List.append_nil _).symm⟩
  | cons p ps ih =>
    obtain ⟨hp, hps⟩ := Part.isBraceFree_cons.1 h
    rw [Part.textOf_cons, String.toList_append, ← List.append_assoc]
    cases p with
    | literal text =>
      obtain ⟨l, rfl⟩ : ∃ l : Literal, l.text = text := ⟨⟨text, hp text rfl⟩, rfl⟩
      obtain ⟨g', hg', hwritten, hslots⟩ := ih hps (g.literal l) (offset + byteLength l.text.toList)
      rw [written_literal] at hwritten
      exact ⟨g', (g.parts_literal l offset ps).trans hg', hwritten, hslots⟩
    | expression v =>
      obtain ⟨g', hg', hwritten, hslots⟩ :=
        ih hps (g.expression v) (offset + byteLength (Part.expression v).text.toList)
      rw [written_expression, ← Part.toList_text_expression] at hwritten
      refine ⟨g', (g.parts_expression v offset ps).trans hg', hwritten, ?_⟩
      rw [hslots]
      simp [expression, finish, Template.slots, Part.slot?]

/-- The first brace in a literal is reported, at the number of bytes before it. -/
theorem parts_of_brace {before after : List Part} {text : String} {x y : List Char} {c : Char}
    (hbefore : Part.IsBraceFree before) (htext : text.toList = x ++ c :: y) (hx : IsPlain x)
    (hc : isBrace c) (g : Growing) (offset : Nat) :
    g.parts offset (before ++ .literal text :: after) =
      .error (.unexpectedBrace c (offset + byteLength ((Part.textOf before).toList ++ x))) := by
  obtain ⟨g', hg', -, -⟩ := exists_parts hbefore g offset
  rw [parts_append, hg', byteLength_append, ← Nat.add_assoc]
  exact parts_literal_of_brace htext hx hc g' _ after

/-! ## Runs of literals -/

theorem literal_literal (g : Growing) (l m : Literal) :
    (g.literal l).literal m = g.literal (l.append m) := by
  have htext : ((g.last.append l).append m).text.toList =
      (g.last.append (l.append m)).text.toList := by simp
  show Growing.mk g.done ((g.last.append l).append m) = ⟨g.done, g.last.append (l.append m)⟩
  rw [Literal.eq_of_toList htext]

theorem literal_empty {l : Literal} (h : l.text = "") (g : Growing) : g.literal l = g := by
  have htext : (g.last.append l).text.toList = g.last.text.toList := by simp [h]
  show Growing.mk g.done (g.last.append l) = g
  rw [Literal.eq_of_toList htext]

/-- Two literals do what one with both texts does; a brace in the second stands after all of the
first. -/
theorem parts_literal_literal (g : Growing) (offset : Nat) (s t : String) (ps : List Part) :
    g.parts offset (.literal s :: .literal t :: ps) = g.parts offset (.literal (s ++ t) :: ps) := by
  rcases literal_or_brace s with ⟨l, rfl⟩ | ⟨x, c, y, hs, hx, hc⟩
  · rw [parts_literal]
    rcases literal_or_brace t with ⟨m, rfl⟩ | ⟨x, c, y, ht, hx, hc⟩
    · have happend := parts_literal g (l.append m) offset ps
      rw [Literal.text_append] at happend
      rw [parts_literal, literal_literal, happend, String.toList_append, byteLength_append,
        Nat.add_assoc]
    · have htext : (l.text ++ t).toList = (l.text.toList ++ x) ++ c :: y := by
        rw [String.toList_append, ht, List.append_assoc]
      have hplain : IsPlain (l.text.toList ++ x) :=
        List.forall_mem_append.2 ⟨l.isPlain, hx⟩
      rw [parts_literal_of_brace ht hx hc, parts_literal_of_brace htext hplain hc,
        byteLength_append, Nat.add_assoc]
  · have htext : (s ++ t).toList = x ++ c :: (y ++ t.toList) := by
      rw [String.toList_append, hs, List.append_assoc]
      rfl
    rw [parts_literal_of_brace hs hx hc, parts_literal_of_brace htext hx hc]

/-- Any number of literals do what one with all their texts does; none do what an empty one does. -/
theorem parts_literals (g : Growing) (offset : Nat) (texts : List String) (ps : List Part) :
    g.parts offset (texts.map .literal ++ ps) =
      g.parts offset (.literal (String.join texts) :: ps) := by
  induction texts generalizing g offset with
  | nil =>
    have hempty := parts_literal g .empty offset ps
    rw [literal_empty rfl] at hempty
    exact hempty.symm
  | cons text texts ih =>
    have hone := parts_append g offset [.literal text] (texts.map .literal ++ ps)
    have hjoined := parts_append g offset [.literal text] (.literal (String.join texts) :: ps)
    simp only [ih] at hone
    rw [String.join_cons, ← parts_literal_literal]
    exact hone.trans hjoined.symm

/-- How literal text is cut into consecutive literals, empty ones included, makes no difference. -/
theorem parts_regroup (g : Growing) (offset : Nat) (before after : List Part)
    (texts : List String) :
    g.parts offset (before ++ (texts.map .literal ++ after)) =
      g.parts offset (before ++ .literal (String.join texts) :: after) := by
  rw [parts_append, parts_append]
  simp only [parts_literals]

/-- The size of a template plays no part in putting it together. -/
theorem parts_ne_tooLarge (g : Growing) (offset : Nat) (ps : List Part) :
    g.parts offset ps ≠ .error .tooLarge := by
  induction ps generalizing g offset with
  | nil => exact nofun
  | cons p ps ih =>
    cases p with
    | literal text =>
      rcases literal_or_brace text with ⟨l, rfl⟩ | ⟨x, c, y, htext, hx, hc⟩
      · rw [parts_literal]
        exact ih _ _
      · rw [parts_literal_of_brace htext hx hc]
        exact nofun
    | expression v =>
      rw [parts_expression]
      exact ih _ _

end Growing

/-! ## Whole templates -/

namespace Template

theorem ofParts_of_isBraceFree {ps : List Part} (h : Part.IsBraceFree ps) :
    ∃ t, ofParts ps = .ok t ∧ t.text = Part.textOf ps ∧ t.slots = ps.filterMap Part.slot? := by
  obtain ⟨g, hg, hwritten, hslots⟩ := Growing.exists_parts h {} 0
  exact ⟨g.finish, by rw [ofParts, hg], String.toList_inj.1 hwritten, hslots⟩

theorem ofParts_of_brace {before : List Part} {text : String} {x y : List Char} {c : Char}
    (hbefore : Part.IsBraceFree before) (htext : text.toList = x ++ c :: y) (hx : IsPlain x)
    (hc : isBrace c) (after : List Part) : ofParts (before ++ .literal text :: after) =
      .error (.unexpectedBrace c (byteLength ((Part.textOf before).toList ++ x))) := by
  rw [ofParts, Growing.parts_of_brace hbefore htext hx hc, Nat.zero_add]

theorem ofParts_regroup (before after : List Part) (texts : List String) :
    ofParts (before ++ (texts.map .literal ++ after)) =
      ofParts (before ++ .literal (String.join texts) :: after) := by
  rw [ofParts, ofParts, Growing.parts_regroup]

theorem ofParts_ne_tooLarge (ps : List Part) : ofParts ps ≠ .error .tooLarge := by
  unfold ofParts
  cases hparts : Growing.parts {} 0 ps with
  | ok g => exact nofun
  | error fault =>
    intro h
    cases h
    exact Growing.parts_ne_tooLarge _ _ _ hparts

end Template

end UriTemplate
