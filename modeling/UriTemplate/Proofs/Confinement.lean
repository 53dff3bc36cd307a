import UriTemplate.Proofs.Assembly
import UriTemplate.Proofs.Expansion
import UriTemplate.Proofs.Grammar.Compiling
import UriTemplate.Proofs.Percent.UpperCase

/-!
# Values stay in their places

What bindings can do to the URI that a template becomes (`Template.expand_confined`):

* a variable becomes nothing, or a value whose triples are in upper case (`Part.becomes_expansion`);
* so a separator stands in the URI exactly as often as in the literals, whatever the bindings
  (`Template.count_expand`);
* and no brace does, so the URI is a template itself, one without variables, whose only URI it is.
-/

namespace UriTemplate

variable {α : Type} [Bindings α]

/-! ## Upper case -/

theorem Variable.isUpper_expansion (v : Variable) (bindings : α) :
    IsUpper (v.expansion bindings).toList := by
  apply v.expansion_cases bindings
  · exact fun p hp => absurd hp List.not_mem_nil
  · exact isUpper_encodeChars
  · exact fun e => isUpper_normalizeChars e.text.toList

/-! ## Separators -/

theorem isSeparator_of_isBrace {c : Char} (h : isBrace c) : isSeparator c := by
  simp only [isBrace, Bool.or_eq_true, beq_iff_eq] at h
  rcases h with rfl | rfl <;> rfl

theorem IsEncoded.isPlain {cs : List Char} (h : IsEncoded cs) : IsPlain cs := by
  intro c hc
  have hsep := h.not_isSeparator c hc
  cases hbrace : isBrace c with
  | false => rfl
  | true => simp [isSeparator_of_isBrace hbrace] at hsep

/-! ## Parts -/

namespace Part

/-- What a part may become: a literal its own text, a variable nothing or a value whose triples are
in upper case. -/
def Becomes : Part → String → Prop
  | literal text, segment => segment = text
  | expression _, segment =>
    segment = "" ∨ (Encoded.isValue segment = true ∧ IsUpper segment.toList)

theorem becomes_expansion (p : Part) (bindings : α) : p.Becomes (p.expansion bindings) := by
  cases p with
  | literal text => rfl
  | expression v =>
    by_cases hempty : v.expansion bindings = ""
    · exact .inl hempty
    · exact .inr ⟨decide_eq_true (Variable.isValue_expansion.2 hempty),
        v.isUpper_expansion bindings⟩

/-- The characters that a part has whatever the bindings. -/
def fixed : Part → List Char
  | literal text => text.toList
  | expression _ => []

theorem count_expansion {c : Char} (hc : isSeparator c) (p : Part) (bindings : α) :
    (p.expansion bindings).toList.count c = p.fixed.count c := by
  cases p with
  | literal text => rfl
  | expression v =>
    apply List.count_eq_zero.2
    intro hmem
    have hsep := (v.isEncoded_expansion bindings).not_isSeparator c hmem
    simp [hc] at hsep

theorem isPlain_expansion {p : Part} (hp : ∀ text, p = .literal text → IsPlain text.toList)
    (bindings : α) : IsPlain (p.expansion bindings).toList := by
  cases p with
  | literal text => exact hp text rfl
  | expression v => exact (v.isEncoded_expansion bindings).isPlain

theorem IsNormal.isBraceFree {ps : List Part} (h : IsNormal ps) : IsBraceFree ps := by
  induction ps with
  | nil => exact fun _ htext => absurd htext List.not_mem_nil
  | cons p ps ih =>
    apply isBraceFree_cons.2
    cases p with
    | literal text =>
      obtain ⟨-, hplain, -, hps⟩ := h
      refine ⟨fun text' heq => ?_, ih hps⟩
      cases heq
      exact hplain
    | expression v => exact ⟨fun _ heq => absurd heq nofun, ih h⟩

end Part

namespace Template

/-! ## The URI of a template -/

/-- The characters of the literals, in order. -/
def fixed (t : Template) : List Char := t.parts.flatMap Part.fixed

theorem toList_expand (t : Template) (bindings : α) :
    (t.expand bindings).toList = t.parts.flatMap fun p => (p.expansion bindings).toList := by
  rw [expand, String.toList_join, List.flatMap_map]

theorem count_expand {c : Char} (hc : isSeparator c) (t : Template) (bindings : α) :
    (t.expand bindings).toList.count c = t.fixed.count c := by
  rw [toList_expand, fixed, List.count_flatMap, List.count_flatMap]
  exact congrArg List.sum (List.map_congr_left fun p _ => p.count_expansion hc bindings)

theorem isPlain_expand (t : Template) (bindings : α) : IsPlain (t.expand bindings).toList := by
  intro c hc
  rw [toList_expand] at hc
  obtain ⟨p, hp, hc⟩ := List.mem_flatMap.1 hc
  have hplain := t.isNormal_parts.isBraceFree
  exact Part.isPlain_expansion (fun text htext => hplain text (htext ▸ hp)) bindings c hc

/-! ## Templates without variables -/

/-- The template that is one literal. -/
def ofLiteral (l : Literal) : Template := ⟨[], l⟩

theorem toList_text_ofLiteral (l : Literal) : (ofLiteral l).text.toList = l.text.toList :=
  toList_text (ofLiteral l)

theorem expand_ofLiteral (l : Literal) (bindings : α) : (ofLiteral l).expand bindings = l.text := by
  apply String.toList_inj.1
  rw [expand, toList_join_parts fun _ => rfl]
  rfl

theorem accepts_ofLiteral {l : Literal} {candidate : String} :
    (ofLiteral l).accepts candidate = true ↔ candidate = l.text := by
  rw [accepts_iff_fills, ← String.toList_inj]
  constructor
  · rintro ⟨vs, h⟩
    generalize hcs : candidate.toList = cs at h
    cases h
    rfl
  · intro h
    rw [h]
    exact ⟨[], .nil⟩

theorem compile_literal {l : Literal} (hsize : ¬ IsTooLarge l.text) :
    (compile l.text).value = .ok (ofLiteral l) := by
  apply compile_of_scan _ hsize
  exact scan_eq_ok.2 ⟨fun v hv => absurd hv List.not_mem_nil, toList_text_ofLiteral l⟩

/-- What bindings can do to a URI. Each part becomes its own text, or nothing, or a value in upper
case. So separators stand in the URI as often as in the literals, under any two bindings, and braces
not at all: the URI compiles to a template without variables, of which it is the only URI. -/
theorem expand_confined {β : Type} [Bindings β] (t : Template) (bindings : α) (others : β) :
    (t.expand bindings = String.join (t.parts.map (·.expansion bindings)) ∧
      ∀ p ∈ t.parts, p.Becomes (p.expansion bindings)) ∧
    (∀ c, isSeparator c = true →
      (t.expand bindings).toList.count c = t.fixed.count c ∧
      (t.expand bindings).toList.count c = (t.expand others).toList.count c) ∧
    IsPlain (t.expand bindings).toList ∧
    (¬ IsTooLarge (t.expand bindings) →
      ∃ u, (compile (t.expand bindings)).value = .ok u ∧ u.slots = [] ∧
        (∀ (γ : Type) [Bindings γ] (any : γ), u.expand any = t.expand bindings) ∧
        ∀ candidate, u.accepts candidate = true ↔ candidate = t.expand bindings) := by
  refine ⟨⟨rfl, fun p _ => p.becomes_expansion bindings⟩, fun c hc => ?_, t.isPlain_expand bindings,
    fun hsize => ?_⟩
  · exact ⟨t.count_expand hc bindings,
      (t.count_expand hc bindings).trans (t.count_expand hc others).symm⟩
  · let l : Literal := ⟨t.expand bindings, t.isPlain_expand bindings⟩
    exact ⟨ofLiteral l, compile_literal (l := l) hsize, rfl, fun γ _ any => expand_ofLiteral l any,
      fun candidate => accepts_ofLiteral⟩

theorem expand_confined_repeated :
    isSeparator '/' = true ∧ ¬ IsTooLarge (repeated.expand [("x", "/{y}")]) ∧
    (repeated.expand [("x", "/{y}")]).toList.count '/' = 2 ∧
    (repeated.expand [("x", "/{y}")]).toList.count '/' =
      (repeated.expand [("y", "///")]).toList.count '/' ∧
    ∃ u, (compile (repeated.expand [("x", "/{y}")])).value = .ok u ∧ u.slots = [] ∧
      u.accepts "%2F%7By%7D/%C3%A9./x%2F%7By%7D" = true := by
  have hsep : isSeparator '/' = true := rfl
  have hsize : ¬ IsTooLarge (repeated.expand [("x", "/{y}")]) := not_tooLarge_of_isOk rfl
  obtain ⟨-, hcount, -, hcompile⟩ := expand_confined repeated [("x", "/{y}")] [("y", "///")]
  obtain ⟨hfixed, hothers⟩ := hcount '/' hsep
  obtain ⟨u, hu, hslots, -, honly⟩ := hcompile hsize
  exact ⟨hsep, hsize, hfixed.trans rfl, hothers, u, hu, hslots, (honly _).2 rfl⟩

end Template

end UriTemplate
