import UriTemplate.Proofs.Grammar.Compiling

/-!
# Templates without their types

A type is no part of what a template is written as, so the template that is read back from a text
has none (`Template.untyped`). Leaving the types out changes neither the text, the regular expression or
its size, nor what the template expands to: each of them is joined part by part, and no part shows
its type.
-/

namespace UriTemplate

def Variable.untyped (v : Variable) : Variable := { v with type := none }

def Part.untyped : Part → Part
  | literal text => literal text
  | expression v => expression v.untyped

def Field.untyped (f : Field) : Field := { f with slot := f.slot.untyped }

def Template.untyped (t : Template) : Template := ⟨t.fields.map Field.untyped, t.tail⟩

theorem Part.text_untyped (p : Part) : p.untyped.text = p.text := by
  cases p <;> rfl

theorem Part.pattern_untyped (p : Part) : p.untyped.pattern = p.pattern := by
  cases p <;> rfl

theorem Part.expansion_untyped {α : Type} [Bindings α] (p : Part) (bindings : α) :
    p.untyped.expansion bindings = p.expansion bindings := by
  cases p <;> rfl

theorem Literal.map_untyped_parts (l : Literal) : l.parts.map Part.untyped = l.parts := by
  by_cases hl : l.text = ""
  · rw [Literal.parts_of_empty hl, List.map_nil]
  · rw [Literal.parts_of_ne hl]
    rfl

namespace Template

theorem parts_untyped (t : Template) : t.untyped.parts = t.parts.map Part.untyped := by
  simp only [parts, untyped, List.map_append, List.flatMap_map, List.map_flatMap, List.map_cons,
    List.map_nil, Literal.map_untyped_parts]
  rfl

theorem isUntyped_untyped (t : Template) : t.untyped.IsUntyped := by
  intro v hv
  simp only [slots, untyped, List.map_map, List.mem_map] at hv
  obtain ⟨f, -, rfl⟩ := hv
  rfl

theorem text_untyped (t : Template) : t.untyped.text = t.text := by
  rw [text, text, parts_untyped, List.map_map]
  exact congrArg String.join (List.map_congr_left fun p _ => p.text_untyped)

theorem pattern_untyped (t : Template) : t.untyped.pattern = t.pattern := by
  rw [pattern, pattern, parts_untyped, List.map_map]
  have hparts : t.parts.map (Part.pattern ∘ Part.untyped) = t.parts.map Part.pattern :=
    List.map_congr_left fun p _ => p.pattern_untyped
  rw [hparts]

theorem names_untyped (t : Template) : t.untyped.names = t.names := by
  simp only [names, slots, untyped, List.map_map]
  rfl

theorem expand_untyped {α : Type} [Bindings α] (t : Template) (bindings : α) :
    t.untyped.expand bindings = t.expand bindings := by
  rw [expand, expand, parts_untyped, List.map_map]
  exact congrArg String.join (List.map_congr_left fun p _ => p.expansion_untyped bindings)

theorem fits_untyped (t : Template) : t.untyped.Fits ↔ t.Fits := by
  have hpart : ∀ p : Part, partSize p.untyped = partSize p := by
    intro p
    cases p <;> rfl
  rw [Fits, Fits, compiledSize, compiledSize, parts_untyped, List.foldl_map]
  simp only [hpart]

/-- The text of a template is scanned to the template without its types. -/
theorem scan_text_eq_untyped (t : Template) : scan t.text.toList = .ok t.untyped := by
  rw [← t.text_untyped]
  exact scan_text t.isUntyped_untyped

/-- A template that fits the size limit is compiled from its text, without its types. -/
theorem compile_text {t : Template} (h : t.Fits) : (compile t.text).value = .ok t.untyped :=
  compile_eq_ok.2 ⟨t.scan_text_eq_untyped, t.fits_untyped.2 h⟩

end Template

end UriTemplate
