import UriTemplate.Proofs.Grammar.Scanning
import UriTemplate.Template.Compile

/-!
# Compiling and printing

What compiling gives is what scanning gives, if the template fits the size limit
(`Template.compile_eq_ok`, `Template.isTooLarge_iff`).

Unless the size limit is met, compiling accepts exactly what the grammar derives, printing undoes
it, and every normal sequence of parts without types is compiled back from its text
(`Template.compile_grammar`).
-/

namespace UriTemplate
namespace Template

/-! ## Outcomes -/

theorem value_certify (t : Template) :
    t.certify.value = if t.Fits then .ok t else .error ⟨t.text, .tooLarge⟩ := by
  rw [certify, Logged.value_bind]
  split <;> rfl

theorem certify_eq_ok {t u : Template} : t.certify.value = .ok u ↔ t = u ∧ t.Fits := by
  rw [value_certify]
  by_cases hfits : t.Fits
  · rw [if_pos hfits, Except.ok.injEq, and_iff_left hfits]
  · rw [if_neg hfits]
    exact ⟨nofun, fun h => absurd h.2 hfits⟩

theorem certify_eq_tooLarge {t : Template} :
    (∃ e, t.certify.value = .error e ∧ e.fault = .tooLarge) ↔ ¬ t.Fits := by
  rw [value_certify]
  by_cases hfits : t.Fits
  · rw [if_pos hfits]
    exact ⟨nofun, fun h => absurd hfits h⟩
  · rw [if_neg hfits]
    exact iff_of_true ⟨_, rfl, rfl⟩ hfits

theorem compile_of_scan_eq {s : String} {t : Template} (h : scan s.toList = .ok t) :
    compile s = t.certify := by
  rw [compile, h]

theorem compile_of_scan_error {s : String} {fault : TemplateFault}
    (h : scan s.toList = .error fault) : compile s = pure (.error ⟨s, fault⟩) := by
  rw [compile, h]

theorem value_compile (s : String) : (compile s).value =
    match scan s.toList with
    | .ok t => if t.Fits then .ok t else .error ⟨s, .tooLarge⟩
    | .error fault => .error ⟨s, fault⟩ := by
  cases hscan : scan s.toList with
  | error fault => rw [compile_of_scan_error hscan, Logged.value_pure]
  | ok t =>
    have htext : t.text = s := String.toList_inj.1 (text_of_scan hscan).2
    rw [compile_of_scan_eq hscan, value_certify, htext]

theorem compile_eq_ok {s : String} {t : Template} :
    (compile s).value = .ok t ↔ scan s.toList = .ok t ∧ t.Fits := by
  cases hscan : scan s.toList with
  | error fault =>
    rw [compile_of_scan_error hscan]
    exact ⟨nofun, nofun⟩
  | ok u =>
    rw [compile_of_scan_eq hscan, certify_eq_ok, Except.ok.injEq]
    exact and_congr_right fun h => by rw [h]

/-- The size limit stops the compilation of a text. -/
def IsTooLarge (s : String) : Prop := ∃ e, (compile s).value = .error e ∧ e.fault = .tooLarge

/-- The limit stops the texts that have no fault but are scanned to a template that does not fit. -/
theorem isTooLarge_iff {s : String} :
    IsTooLarge s ↔ ∃ t, scan s.toList = .ok t ∧ ¬ t.Fits := by
  rw [IsTooLarge]
  cases hscan : scan s.toList with
  | error fault =>
    rw [compile_of_scan_error hscan]
    refine ⟨?_, nofun⟩
    rintro ⟨e, he, hlarge⟩
    cases he
    obtain rfl : fault = .tooLarge := hlarge
    exact absurd hscan (scan_ne_tooLarge _)
  | ok t =>
    rw [compile_of_scan_eq hscan, certify_eq_tooLarge]
    simp

theorem not_tooLarge_of_isOk {x : Except TemplateError Template} (h : x.isOk = true) :
    ¬ ∃ e, x = .error e ∧ e.fault = .tooLarge := by
  rintro ⟨e, rfl, -⟩
  cases h

theorem scan_of_compile {s : String} {t : Template} (h : (compile s).value = .ok t) :
    scan s.toList = .ok t := (compile_eq_ok.1 h).1

theorem compile_of_scan {s : String} {t : Template} (h : scan s.toList = .ok t)
    (hsize : ¬ IsTooLarge s) : (compile s).value = .ok t := by
  refine compile_eq_ok.2 ⟨h, Decidable.byContradiction fun hfits => hsize ?_⟩
  exact isTooLarge_iff.2 ⟨t, h, hfits⟩

/-! ## Compiling and the grammar -/

/-- Compiling accepts what the grammar derives; the parts of the template are a normal sequence that
is written as the text; and every normal sequence without types is compiled from its text. -/
theorem compile_grammar :
    (∀ s, ¬ IsTooLarge s →
      ((∃ t, (compile s).value = .ok t) ↔ Abnf.Derives Abnf.template s.toList)) ∧
    (∀ s t, (compile s).value = .ok t → Part.textOf t.parts = s ∧ Part.IsNormal t.parts) ∧
    (∀ parts, Part.IsNormal parts → (∀ v, .expression v ∈ parts → v.type = none) →
      ¬ IsTooLarge (Part.textOf parts) →
      ∃ t, (compile (Part.textOf parts)).value = .ok t ∧ t.parts = parts) := by
  refine ⟨fun s hsize => ⟨?_, ?_⟩, fun s t h => ?_, fun parts hnormal htypes hsize => ?_⟩
  · intro ⟨t, h⟩
    exact Abnf.derives_template.2 ⟨t, text_of_scan (scan_of_compile h)⟩
  · intro h
    obtain ⟨t, ht⟩ := Abnf.derives_template.1 h
    exact ⟨t, compile_of_scan (scan_eq_ok.2 ht) hsize⟩
  · obtain ⟨-, htext⟩ := text_of_scan (scan_of_compile h)
    exact ⟨String.toList_inj.1 htext, t.isNormal_parts⟩
  · obtain ⟨t, rfl⟩ := exists_of_isNormal hnormal
    have huntyped : t.IsUntyped := fun v hv => htypes v (mem_slots.1 hv)
    exact ⟨t, compile_of_scan (scan_text huntyped) hsize, rfl⟩

/-- Literal text and two adjacent variables, one of them with a default. -/
def mixed : List Part :=
  [.literal "/é", .expression { name := ⟨"user", by decide⟩ },
    .expression { name := ⟨"page", by decide⟩, default := some ⟨"%2f", by decide⟩ }]

theorem compile_grammar_mixed :
    Part.IsNormal mixed ∧ (∀ v, .expression v ∈ mixed → v.type = none) ∧
    ¬ IsTooLarge (Part.textOf mixed) ∧ Abnf.Derives Abnf.template (Part.textOf mixed).toList ∧
    ∃ t, (compile (Part.textOf mixed)).value = .ok t ∧ t.parts = mixed := by
  have hnormal : Part.IsNormal mixed := ⟨by decide, by decide, by simp, trivial⟩
  have htypes : ∀ v, .expression v ∈ mixed → v.type = none := by
    intro v hv
    simp only [mixed, List.mem_cons, Part.expression.injEq, List.not_mem_nil, or_false] at hv
    rcases hv with h | rfl | rfl
    · cases h
    · rfl
    · rfl
  have hsize : ¬ IsTooLarge (Part.textOf mixed) := not_tooLarge_of_isOk rfl
  obtain ⟨haccepts, -, hprinted⟩ := compile_grammar
  obtain ⟨t, ht, hparts⟩ := hprinted mixed hnormal htypes hsize
  exact ⟨hnormal, htypes, hsize, (haccepts _ hsize).1 ⟨t, ht⟩, t, ht, hparts⟩

end Template
end UriTemplate
