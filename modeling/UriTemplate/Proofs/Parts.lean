import UriTemplate.Template.Assembly

/-!
# Templates and their parts

* `toList_join_parts`: a text joined from the parts of a template, field by field.
* `Template.isNormal_parts`, `Template.exists_of_isNormal`: the sequences of parts that templates
  have are those in which no literal is empty, holds a brace or follows a literal.
-/

namespace UriTemplate

/-! ## Literals -/

theorem Literal.parts_of_empty {l : Literal} (h : l.text = "") : l.parts = [] :=
  if_pos (by rw [h]; rfl)

theorem Literal.parts_of_ne {l : Literal} (h : l.text ≠ "") : l.parts = [.literal l.text] :=
  if_neg (by simpa using h)

/-! ## Texts of parts -/

section
variable {f : Part → String} (hf : ∀ text, f (.literal text) = text)
include hf

theorem toList_join_literal (l : Literal) (ps : List Part) :
    (String.join ((l.parts ++ ps).map f)).toList =
      l.text.toList ++ (String.join (ps.map f)).toList := by
  by_cases hl : l.text = ""
  · rw [Literal.parts_of_empty hl, hl]
    rfl
  · rw [Literal.parts_of_ne hl, List.singleton_append, List.map_cons, String.join_cons,
      String.toList_append, hf]

theorem toList_join_parts (t : Template) : (String.join (t.parts.map f)).toList =
    (t.fields.flatMap fun g => g.before.text.toList ++ (f (.expression g.slot)).toList) ++
      t.tail.text.toList := by
  unfold Template.parts
  induction t.fields with
  | nil => simpa using toList_join_literal hf t.tail []
  | cons g gs ih =>
    rw [List.flatMap_cons, List.append_assoc, List.append_assoc, toList_join_literal hf,
      List.singleton_append, List.map_cons, String.join_cons, String.toList_append, ih,
      List.flatMap_cons, List.append_assoc, List.append_assoc]

end

/-! ## Normal sequences -/

namespace Part

/-- No literal is empty, holds a brace or is followed by another literal. -/
def IsNormal : List Part → Prop
  | [] => True
  | expression _ :: ps => IsNormal ps
  | literal text :: ps =>
    text ≠ "" ∧ IsPlain text.toList ∧ (∀ next, ps.head? ≠ some (literal next)) ∧ IsNormal ps

theorem isNormal_literal {l : Literal} {ps : List Part} (h : IsNormal ps)
    (hnext : ∀ next, ps.head? ≠ some (literal next)) : IsNormal (l.parts ++ ps) := by
  by_cases hl : l.text = ""
  · rwa [Literal.parts_of_empty hl]
  · rw [Literal.parts_of_ne hl]
    exact ⟨hl, l.isPlain, hnext, h⟩

end Part

namespace Template

theorem isNormal_parts (t : Template) : Part.IsNormal t.parts := by
  unfold parts
  induction t.fields with
  | nil =>
    have htail : Part.IsNormal (t.tail.parts ++ []) := Part.isNormal_literal trivial (by simp)
    rwa [List.append_nil] at htail
  | cons f fs ih =>
    rw [List.flatMap_cons, List.append_assoc, List.append_assoc]
    exact Part.isNormal_literal ih (by simp)

theorem filterMap_slot?_parts (t : Template) : t.parts.filterMap Part.slot? = t.slots := by
  have hliteral : ∀ l : Literal, l.parts.filterMap Part.slot? = [] := by
    intro l
    by_cases hl : l.text = ""
    · rw [Literal.parts_of_empty hl, List.filterMap_nil]
    · rw [Literal.parts_of_ne hl]
      rfl
  unfold parts slots
  rw [List.filterMap_append, hliteral, List.append_nil]
  induction t.fields with
  | nil => rfl
  | cons f fs ih =>
    rw [List.flatMap_cons, List.filterMap_append, List.filterMap_append, hliteral, ih]
    rfl

theorem mem_slots {t : Template} {v : Variable} : v ∈ t.slots ↔ .expression v ∈ t.parts := by
  rw [← filterMap_slot?_parts, List.mem_filterMap]
  constructor
  · intro ⟨p, hp, hslot⟩
    cases p with
    | literal text => cases hslot
    | expression w =>
      cases hslot
      exact hp
  · exact fun h => ⟨_, h, rfl⟩

def consLiteral (l : Literal) : Template → Template
  | ⟨[], tail⟩ => ⟨[], l.append tail⟩
  | ⟨f :: fs, tail⟩ => ⟨⟨l.append f.before, f.slot⟩ :: fs, tail⟩

def consSlot (v : Variable) (t : Template) : Template := ⟨⟨.empty, v⟩ :: t.fields, t.tail⟩

theorem parts_consSlot (v : Variable) (t : Template) :
    (t.consSlot v).parts = .expression v :: t.parts := rfl

theorem slots_consLiteral (l : Literal) (t : Template) : (t.consLiteral l).slots = t.slots := by
  obtain ⟨fields, tail⟩ := t
  cases fields <;> rfl

/-- Literal text is a part of its own in front of a template that does not begin with any. -/
theorem parts_consLiteral {l : Literal} {t : Template} (hl : l.text ≠ "")
    (ht : ∀ next, t.parts.head? ≠ some (.literal next)) :
    (t.consLiteral l).parts = .literal l.text :: t.parts := by
  obtain ⟨fields, tail⟩ := t
  have happend : ∀ (m : Literal) (ps : List Part),
      (∀ next, (m.parts ++ ps).head? ≠ some (.literal next)) →
      m.parts = [] ∧ (l.append m).parts = [.literal l.text] := by
    intro m ps hm
    by_cases hempty : m.text = ""
    · have htext : (l.append m).text = l.text := by simp [hempty]
      refine ⟨Literal.parts_of_empty hempty, ?_⟩
      rw [Literal.parts_of_ne (by rwa [htext]), htext]
    · rw [Literal.parts_of_ne hempty] at hm
      exact absurd rfl (hm m.text)
  cases fields with
  | nil =>
    obtain ⟨htail, hparts⟩ := happend tail [] (by simpa [parts] using ht)
    show (l.append tail).parts = .literal l.text :: tail.parts
    rw [hparts, htail]
  | cons f fs =>
    simp only [parts, List.flatMap_cons, List.append_assoc] at ht
    obtain ⟨hbefore, hparts⟩ := happend f.before _ ht
    simp only [parts, consLiteral, List.flatMap_cons, List.append_assoc, hbefore, hparts]
    rfl

theorem exists_of_isNormal {ps : List Part} (h : Part.IsNormal ps) : ∃ t : Template, t.parts = ps := by
  induction ps with
  | nil => exact ⟨empty, rfl⟩
  | cons p ps ih =>
    cases p with
    | literal text =>
      obtain ⟨hne, hplain, hnext, hps⟩ := h
      obtain ⟨t, rfl⟩ := ih hps
      exact ⟨t.consLiteral ⟨text, hplain⟩, parts_consLiteral hne hnext⟩
    | expression v =>
      obtain ⟨t, rfl⟩ := ih h
      exact ⟨t.consSlot v, parts_consSlot v t⟩

end Template

end UriTemplate
