import UriTemplate.Proofs.Grammar.Variables
import UriTemplate.Proofs.Parts

/-!
# Templates in the grammar

`Abnf.derives_template`: the grammar derives what templates without types are written as, and
nothing else. A derivation is a sequence of literals and expressions; each of them stands in front
of a template that writes the rest (`Template.consLiteral`, `Template.consSlot`).
-/

namespace UriTemplate

/-! ## Written form -/

theorem Part.toList_text_expression (v : Variable) : (Part.expression v).text.toList =
    expressionStart :: (v.text.toList ++ [expressionEnd]) := by
  rw [Part.text, String.toList_append, String.toList_append]
  rfl

def Field.written (f : Field) : List Char :=
  f.before.text.toList ++ expressionStart :: (f.slot.text.toList ++ [expressionEnd])

namespace Template

theorem toList_text (t : Template) :
    t.text.toList = t.fields.flatMap Field.written ++ t.tail.text.toList := by
  rw [text, toList_join_parts fun _ => rfl]
  simp only [Part.toList_text_expression]
  rfl

theorem toList_text_consLiteral (l : Literal) (t : Template) :
    (t.consLiteral l).text.toList = l.text.toList ++ t.text.toList := by
  obtain ⟨fields, tail⟩ := t
  rw [toList_text, toList_text]
  cases fields with
  | nil => simp [consLiteral]
  | cons f fs => simp [consLiteral, Field.written]

theorem toList_text_consSlot (v : Variable) (t : Template) : (t.consSlot v).text.toList =
    expressionStart :: (v.text.toList ++ [expressionEnd]) ++ t.text.toList := by
  rw [toList_text, toList_text]
  simp [consSlot, Field.written]

def IsUntyped (t : Template) : Prop := ∀ v ∈ t.slots, v.type = none

theorem IsUntyped.consSlot {v : Variable} {t : Template} (hv : v.type = none) (ht : t.IsUntyped) :
    (t.consSlot v).IsUntyped := List.forall_mem_cons.2 ⟨hv, ht⟩

end Template

/-! ## Derivations -/

namespace Abnf

/-- What a template is a sequence of. -/
def piece : Abnf := .alt literal (.seq (.text "\x7b") (.seq var (.text "\x7d")))

theorem derives_piece {cs : List Char} : Derives piece cs ↔
    (cs ≠ [] ∧ IsPlain cs) ∨ ∃ v : Variable, v.type = none ∧
      cs = expressionStart :: (v.text.toList ++ [expressionEnd]) := by
  have hopen : ∀ cs, Derives (.text "\x7b") cs ↔ cs = [expressionStart] :=
    fun _ => derives_mark (isClass_mark '\x7b' rfl (by decide) (by decide))
  have hclose : ∀ cs, Derives (.text "\x7d") cs ↔ cs = [expressionEnd] :=
    fun _ => derives_mark (isClass_mark '\x7d' rfl (by decide) (by decide))
  rw [piece, derives_alt, derives_literal]
  refine or_congr_right ⟨fun h => ?_, fun ⟨v, hv, hcs⟩ => ?_⟩
  · obtain ⟨x, y, rfl, hx, hy⟩ := derives_seq.1 h
    obtain ⟨y, z, rfl, hy, hz⟩ := derives_seq.1 hy
    obtain ⟨v, hv, rfl⟩ := derives_var.1 hy
    rw [(hopen x).1 hx, (hclose z).1 hz]
    exact ⟨v, hv, rfl⟩
  · rw [hcs]
    exact .seq ((hopen _).2 rfl) (.seq (derives_var.2 ⟨v, hv, rfl⟩) ((hclose _).2 rfl))

theorem derives_literal_append {l : Literal} {cs : List Char} (h : Derives template cs) :
    Derives template (l.text.toList ++ cs) := by
  by_cases hl : l.text.toList = []
  · rwa [hl]
  · exact .more (.left (derives_literal.2 ⟨hl, l.isPlain⟩)) h

theorem derives_template {cs : List Char} :
    Derives template cs ↔ ∃ t : Template, t.IsUntyped ∧ t.text.toList = cs := by
  constructor
  · intro h
    obtain ⟨pieces, -, rfl, hpieces⟩ := derives_many.1 h
    clear h
    induction pieces with
    | nil => exact ⟨.empty, by simp [Template.IsUntyped, Template.slots, Template.empty], rfl⟩
    | cons p pieces ih =>
      obtain ⟨hp, hrest⟩ := List.forall_mem_cons.1 hpieces
      obtain ⟨t, ht, htext⟩ := ih hrest
      rw [List.flatten_cons, ← htext]
      rcases derives_piece.1 hp with ⟨-, hplain⟩ | ⟨v, hv, rfl⟩
      · obtain ⟨l, rfl⟩ : ∃ l : Literal, l.text.toList = p :=
          ⟨⟨String.ofList p, by rwa [String.toList_ofList]⟩, String.toList_ofList⟩
        refine ⟨t.consLiteral l, ?_, t.toList_text_consLiteral l⟩
        rwa [Template.IsUntyped, Template.slots_consLiteral]
      · exact ⟨t.consSlot v, ht.consSlot hv, t.toList_text_consSlot v⟩
  · intro ⟨t, ht, hcs⟩
    rw [← hcs, Template.toList_text]
    unfold Template.IsUntyped Template.slots at ht
    generalize t.fields = fields at ht
    induction fields with
    | nil =>
      rw [List.flatMap_nil, List.nil_append, ← List.append_nil t.tail.text.toList]
      exact derives_literal_append .done
    | cons f fs ih =>
      obtain ⟨hf, hfs⟩ := List.forall_mem_cons.1 ht
      rw [List.flatMap_cons, Field.written, List.append_assoc, List.append_assoc]
      exact derives_literal_append (.more (derives_piece.2 (.inr ⟨f.slot, hf, rfl⟩)) (ih hfs))

end Abnf

end UriTemplate
