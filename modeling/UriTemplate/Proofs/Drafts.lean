import UriTemplate.Datum
import UriTemplate.Proofs.Assembly
import UriTemplate.Proofs.Types

/-!
# Drafts

What building gives for any sequence of steps on a draft (`Draft.build_run`):

* a brace in literal text is refused, the first one at its place in the text of all steps
  (`Draft.IsFirstBrace`), and nothing else is refused but for its size;
* otherwise the template is written as the steps are, and compiling or reading back that text gives
  the same template without its types;
* cutting literal text into steps in another way changes nothing.

A run of steps whose expressions can be read is known by the parts it adds (`Draft.run_eq`), so all
this is a matter of assembling parts.
-/

namespace UriTemplate
namespace Draft

/-! ## Steps -/

/-- One addition to a draft. -/
inductive Step where
  | literal (text : String)
  | slot (v : Variable)
  /-- The variable that an expression writes. -/
  | expression (text : String)

namespace Step

def apply (d : Draft) : Step → Except VariableFault Draft
  | literal text => .ok (d.literal text)
  | slot v => .ok (d.slot v)
  | expression text => d.expression text

def text : Step → String
  | literal text => text
  | slot v => (Part.expression v).text
  | expression text => expressionStart.toString ++ text ++ expressionEnd.toString

/-- The part that a step adds: none if its expression is refused. -/
def part? : Step → Option Part
  | literal text => some (.literal text)
  | slot v => some (.expression v)
  | expression text => (Variable.parse text).toOption.map .expression

end Step

/-- Takes steps one after the other; an expression that is refused ends the run. -/
def run (d : Draft) (steps : List Step) : Except VariableFault Draft := steps.foldlM Step.apply d

/-- The written form of a sequence of steps. -/
def written (steps : List Step) : String := String.join (steps.map Step.text)

def parts (steps : List Step) : List Part := steps.filterMap Step.part?

/-- Every expression writes a variable. -/
def IsReadable (steps : List Step) : Prop :=
  ∀ text, .expression text ∈ steps → ∃ v, Variable.parse text = .ok v

/-- No literal text holds a brace. -/
def IsBraceFree (steps : List Step) : Prop := ∀ text, .literal text ∈ steps → IsPlain text.toList

/-- The character `c` is the first brace in literal text, and `position` bytes are written before
it. -/
def IsFirstBrace (steps : List Step) (c : Char) (position : Nat) : Prop :=
  ∃ before text after x y, steps = before ++ .literal text :: after ∧ text.toList = x ++ c :: y ∧
    IsBraceFree before ∧ IsPlain x ∧ isBrace c ∧ position = byteLength ((written before).toList ++ x)

theorem isReadable_cons {s : Step} {steps : List Step} : IsReadable (s :: steps) ↔
    (∀ text, s = .expression text → ∃ v, Variable.parse text = .ok v) ∧ IsReadable steps := by
  simp only [IsReadable, List.mem_cons, or_imp, forall_and, eq_comm]

theorem isBraceFree_cons {s : Step} {steps : List Step} : IsBraceFree (s :: steps) ↔
    (∀ text, s = .literal text → IsPlain text.toList) ∧ IsBraceFree steps := by
  simp only [IsBraceFree, List.mem_cons, or_imp, forall_and, eq_comm]

/-! ## The parts of a run -/

/-- A step that can be read adds one part, which is written as the step is. -/
theorem apply_eq {s : Step} (h : ∀ text, s = .expression text → ∃ v, Variable.parse text = .ok v) :
    ∃ p, s.part? = some p ∧ p.text = s.text ∧ ∀ d : Draft, s.apply d = .ok ⟨d.steps.push p⟩ := by
  cases s with
  | literal text => exact ⟨.literal text, rfl, rfl, fun _ => rfl⟩
  | slot v => exact ⟨.expression v, rfl, rfl, fun _ => rfl⟩
  | expression text =>
    obtain ⟨v, hv⟩ := h text rfl
    obtain ⟨rfl, -⟩ := Variable.text_of_parse hv
    refine ⟨.expression v, by rw [Step.part?, hv]; rfl, rfl, fun d => ?_⟩
    rw [Step.apply, expression, hv]
    rfl

theorem run_eq {steps : List Step} (h : IsReadable steps) (d : Draft) :
    d.run steps = .ok ⟨d.steps ++ (parts steps).toArray⟩ := by
  induction steps generalizing d with
  | nil =>
    show Except.ok d = .ok ⟨d.steps ++ #[]⟩
    rw [Array.append_empty]
  | cons s steps ih =>
    obtain ⟨hs, hsteps⟩ := isReadable_cons.1 h
    obtain ⟨p, hp, -, hd⟩ := apply_eq hs
    show s.apply d >>= (·.run steps) = _
    rw [hd, parts, List.filterMap_cons_some hp, List.toArray_cons, ← Array.append_assoc,
      Array.append_singleton]
    exact ih hsteps _

theorem textOf_parts {steps : List Step} (h : IsReadable steps) :
    Part.textOf (parts steps) = written steps := by
  induction steps with
  | nil => rfl
  | cons s steps ih =>
    obtain ⟨hs, hsteps⟩ := isReadable_cons.1 h
    obtain ⟨p, hp, htext, -⟩ := apply_eq hs
    rw [parts, List.filterMap_cons_some hp, Part.textOf_cons, htext, written, List.map_cons,
      String.join_cons]
    exact congrArg (s.text ++ ·) (ih hsteps)

theorem literal_mem_parts {steps : List Step} {text : String} :
    .literal text ∈ parts steps ↔ .literal text ∈ steps := by
  rw [parts, List.mem_filterMap]
  constructor
  · rintro ⟨s, hs, hpart⟩
    cases s with
    | literal text' =>
      cases hpart
      exact hs
    | slot v => cases hpart
    | expression text' =>
      obtain ⟨v, -, hv⟩ := Option.map_eq_some_iff.1 hpart
      cases hv
  · exact fun h => ⟨_, h, rfl⟩

theorem isBraceFree_parts {steps : List Step} :
    Part.IsBraceFree (parts steps) ↔ IsBraceFree steps := by
  simp only [Part.IsBraceFree, IsBraceFree, literal_mem_parts]

theorem parts_literals (before after : List Step) (texts : List String) :
    parts (before ++ (texts.map .literal ++ after)) =
      parts before ++ (texts.map .literal ++ parts after) := by
  have htexts : (texts.map Step.literal).filterMap Step.part? = texts.map Part.literal := by
    rw [List.filterMap_map]
    exact congrFun (List.filterMap_eq_map (f := Part.literal)) texts
  rw [parts, List.filterMap_append, List.filterMap_append, htexts]
  rfl

/-! ## Building -/

/-- The size limit stops the building of a draft. -/
def IsTooLarge (d : Draft) : Prop := ∃ e, d.build.value = .error e ∧ e.fault = .tooLarge

theorem build_of_ofParts {d : Draft} {t : Template} (h : Template.ofParts d.steps.toList = .ok t) :
    d.build = t.certify := by
  rw [build, h]

theorem build_of_ofParts_error {d : Draft} {fault : TemplateFault}
    (h : Template.ofParts d.steps.toList = .error fault) :
    d.build = pure (.error ⟨d.text, fault⟩) := by
  rw [build, h]

theorem build_eq_ok {d : Draft} {t : Template} :
    d.build.value = .ok t ↔ Template.ofParts d.steps.toList = .ok t ∧ t.Fits := by
  cases hparts : Template.ofParts d.steps.toList with
  | error fault =>
    rw [build_of_ofParts_error hparts]
    exact ⟨nofun, nofun⟩
  | ok u =>
    rw [build_of_ofParts hparts, Template.certify_eq_ok, Except.ok.injEq]
    exact and_congr_right fun h => by rw [h]

/-- The limit stops the drafts without a brace in a literal whose template does not fit. -/
theorem isTooLarge_iff {d : Draft} :
    d.IsTooLarge ↔ ∃ t, Template.ofParts d.steps.toList = .ok t ∧ ¬ t.Fits := by
  rw [IsTooLarge]
  cases hparts : Template.ofParts d.steps.toList with
  | error fault =>
    rw [build_of_ofParts_error hparts]
    refine ⟨?_, nofun⟩
    rintro ⟨e, he, hlarge⟩
    cases he
    obtain rfl : fault = .tooLarge := hlarge
    exact absurd hparts (Template.ofParts_ne_tooLarge _)
  | ok t =>
    rw [build_of_ofParts hparts, Template.certify_eq_tooLarge]
    simp

theorem build_congr {d d' : Draft} (htext : d.text = d'.text)
    (hparts : Template.ofParts d.steps.toList = Template.ofParts d'.steps.toList) :
    d.build = d'.build := by
  rw [build, build, hparts, htext]

/-- The draft that a run of steps gives. -/
def ofSteps (steps : List Step) : Draft := ⟨(parts steps).toArray⟩

theorem run_eq_ofSteps {steps : List Step} (h : IsReadable steps) :
    run {} steps = .ok (ofSteps steps) := by
  rw [run_eq h, Array.empty_append]
  rfl

theorem text_ofSteps {steps : List Step} (h : IsReadable steps) :
    (ofSteps steps).text = written steps := textOf_parts h

/-! ## Steps without braces -/

theorem ofParts_ofSteps {steps : List Step} (hread : IsReadable steps) (h : IsBraceFree steps) :
    ∃ t, Template.ofParts (ofSteps steps).steps.toList = .ok t ∧ t.text = written steps ∧
      t.slots = (parts steps).filterMap Part.slot? := by
  rw [← textOf_parts hread]
  exact Template.ofParts_of_isBraceFree (isBraceFree_parts.2 h)

theorem not_isBraceFree_of_build {steps : List Step} (hread : IsReadable steps) {e : TemplateError}
    {c : Char} {position : Nat} (he : (ofSteps steps).build.value = .error e)
    (hfault : e.fault = .unexpectedBrace c position) : ¬ IsBraceFree steps := by
  intro h
  obtain ⟨t, ht, -, -⟩ := ofParts_ofSteps hread h
  rw [build_of_ofParts ht, Template.value_certify] at he
  split at he
  · cases he
  · cases he
    cases hfault

/-- How literal text is cut into steps makes no difference to what is built. -/
theorem build_regroup {before after : List Step} {texts : List String}
    (h : IsReadable (before ++ (texts.map .literal ++ after))) :
    ∃ d, run {} (before ++ .literal (String.join texts) :: after) = .ok d ∧
      d.build = (ofSteps (before ++ (texts.map .literal ++ after))).build := by
  have hread : IsReadable (before ++ .literal (String.join texts) :: after) := by
    intro e he
    apply h e
    simpa using he
  refine ⟨_, run_eq_ofSteps hread, build_congr ?_ ?_⟩
  · rw [text_ofSteps hread, text_ofSteps h]
    simp [written, Function.comp_def, Step.text, String.join_append]
  · show Template.ofParts (parts (before ++ ([String.join texts].map .literal ++ after))) =
      Template.ofParts (parts (before ++ (texts.map .literal ++ after)))
    rw [parts_literals, parts_literals]
    exact (Template.ofParts_regroup _ _ texts).symm

/-! ## The first brace -/

theorem exists_isFirstBrace {steps : List Step} (h : ¬ IsBraceFree steps) :
    ∃ c position, IsFirstBrace steps c position := by
  induction steps with
  | nil => exact absurd (fun _ ht => absurd ht List.not_mem_nil) h
  | cons s steps ih =>
    by_cases hs : ∀ text, s = .literal text → IsPlain text.toList
    · have hsteps : ¬ IsBraceFree steps := fun hsteps => h (isBraceFree_cons.2 ⟨hs, hsteps⟩)
      obtain ⟨c, _, before, text, after, x, y, rfl, htext, hbefore, hx, hc, -⟩ := ih hsteps
      exact ⟨c, _, s :: before, text, after, x, y, rfl, htext, isBraceFree_cons.2 ⟨hs, hbefore⟩,
        hx, hc, rfl⟩
    · simp only [Classical.not_forall] at hs
      obtain ⟨text, rfl, htext⟩ := hs
      obtain ⟨x, c, y, htext, hx, hc⟩ := exists_first_brace htext
      exact ⟨c, _, [], text, steps, x, y, rfl, htext, fun _ ht => absurd ht List.not_mem_nil, hx,
        hc, rfl⟩

theorem build_of_isFirstBrace {steps : List Step} (h : IsReadable steps) {c : Char}
    {position : Nat} (hbrace : IsFirstBrace steps c position) :
    (ofSteps steps).build = pure (.error ⟨written steps, .unexpectedBrace c position⟩) := by
  obtain ⟨before, text, after, x, y, rfl, htext, hbefore, hx, hc, rfl⟩ := hbrace
  have hread : IsReadable before := fun e he => h e (List.mem_append_left _ he)
  have hparts : (ofSteps (before ++ .literal text :: after)).steps.toList =
      parts before ++ .literal text :: parts after := parts_literals before after [text]
  have hbrace :=
    Template.ofParts_of_brace (isBraceFree_parts.2 hbefore) htext hx hc (parts after)
  rw [textOf_parts hread, ← hparts] at hbrace
  rw [build_of_ofParts_error hbrace, text_ofSteps h]

/-! ## Runs that succeed -/

theorem readable_of_apply {s : Step} {d d' : Draft} (h : s.apply d = .ok d') :
    ∀ text, s = .expression text → ∃ v, Variable.parse text = .ok v := by
  rintro text rfl
  have hparse : (Variable.parse text).map d.slot = .ok d' := h
  cases hv : Variable.parse text with
  | error fault =>
    rw [hv] at hparse
    cases hparse
  | ok v => exact ⟨v, rfl⟩

theorem exists_of_run_cons {s : Step} {steps : List Step} {d d' : Draft}
    (h : d.run (s :: steps) = .ok d') :
    ∃ d₁, s.apply d = .ok d₁ ∧ d₁.run steps = .ok d' := by
  have hrun : (s.apply d >>= (·.run steps)) = .ok d' := h
  cases happly : s.apply d with
  | error fault =>
    rw [happly] at hrun
    cases hrun
  | ok d₁ =>
    rw [happly] at hrun
    exact ⟨d₁, rfl, hrun⟩

theorem isReadable_of_run {steps : List Step} {d d' : Draft} (h : d.run steps = .ok d') :
    IsReadable steps := by
  induction steps generalizing d with
  | nil => exact fun _ htext => absurd htext List.not_mem_nil
  | cons s steps ih =>
    obtain ⟨d₁, happly, hrun⟩ := exists_of_run_cons h
    exact isReadable_cons.2 ⟨readable_of_apply happly, ih hrun⟩

theorem eq_ofSteps_of_run {steps : List Step} {d : Draft} (h : run {} steps = .ok d) :
    d = ofSteps steps :=
  Except.ok.inj (h.symm.trans (run_eq_ofSteps (isReadable_of_run h)))

/-- A template that is built is written as the steps are. -/
theorem text_of_build {steps : List Step} {d : Draft} {t : Template} (hrun : run {} steps = .ok d)
    (h : d.build.value = .ok t) : t.text = written steps := by
  have hread := isReadable_of_run hrun
  obtain rfl := eq_ofSteps_of_run hrun
  by_cases hfree : IsBraceFree steps
  · obtain ⟨t', ht', htext, -⟩ := ofParts_ofSteps hread hfree
    rw [build_eq_ok, ht', Except.ok.injEq] at h
    rw [← h.1, htext]
  · obtain ⟨c, position, hbrace⟩ := exists_isFirstBrace hfree
    rw [build_of_isFirstBrace hread hbrace] at h
    cases h

/-! ## Any run of steps -/

/-- Building after any run of steps. A brace in literal text is refused, the first one at its place
in the text. Without one the template is written as the steps are, has their variables, and is what
its text is compiled to, but for the types. How literal text is cut into steps makes no
difference. -/
theorem build_run (steps : List Step) (hread : IsReadable steps) :
    ∃ d, run {} steps = .ok d ∧
    ((∃ e, d.build.value = .error e ∧ ∃ c position, e.fault = .unexpectedBrace c position) ↔
      ¬ IsBraceFree steps) ∧
    (∀ e c position, d.build.value = .error e → e.fault = .unexpectedBrace c position →
      e.input = written steps ∧ IsFirstBrace steps c position) ∧
    (IsBraceFree steps → ¬ d.IsTooLarge →
      ∃ t, d.build.value = .ok t ∧ t.text = written steps ∧ Part.IsNormal t.parts ∧
        t.slots = (parts steps).filterMap Part.slot? ∧
        ∃ u, (Template.compile (written steps)).value = .ok u ∧
          (Template.ofDatum (.text t.text)).value = .ok u ∧ u.text = t.text ∧
          u.pattern = t.pattern ∧ u.parts = t.parts.map Part.untyped) ∧
    ∀ before texts after, steps = before ++ (texts.map .literal ++ after) →
      ∃ d', run {} (before ++ .literal (String.join texts) :: after) = .ok d' ∧
        d'.build = d.build := by
  refine ⟨ofSteps steps, run_eq_ofSteps hread, ⟨?_, ?_⟩, ?_, ?_, ?_⟩
  · rintro ⟨e, he, c, position, hfault⟩
    exact not_isBraceFree_of_build hread he hfault
  · intro h
    obtain ⟨c, position, hbrace⟩ := exists_isFirstBrace h
    exact ⟨_, congrArg Logged.value (build_of_isFirstBrace hread hbrace), c, position, rfl⟩
  · intro e c position he hfault
    obtain ⟨c', position', hbrace⟩ :=
      exists_isFirstBrace (not_isBraceFree_of_build hread he hfault)
    rw [build_of_isFirstBrace hread hbrace] at he
    cases he
    cases hfault
    exact ⟨rfl, hbrace⟩
  · intro h hsize
    obtain ⟨t, ht, htext, hslots⟩ := ofParts_ofSteps hread h
    have hfits : t.Fits := Decidable.byContradiction fun hlarge =>
      hsize (isTooLarge_iff.2 ⟨t, ht, hlarge⟩)
    have hcompile := Template.compile_text hfits
    refine ⟨t, build_eq_ok.2 ⟨ht, hfits⟩, htext, t.isNormal_parts, hslots, t.untyped, ?_, ?_,
      t.text_untyped, t.pattern_untyped, t.parts_untyped⟩
    · rwa [← htext]
    · show ((Template.compile t.text).value.mapError _) = .ok t.untyped
      rw [hcompile]
      rfl
  · rintro before texts after rfl
    exact build_regroup hread

/-- Literal text in two steps, one of them empty, a variable with a type and one that is written. -/
def history : List Step :=
  [.literal "/é", .literal "", .slot { name := ⟨"id", by decide⟩, type := some ⟨"int", by decide⟩ },
    .expression "n=%2f"]

/-- One more step, with a brace. -/
def spoiled : List Step := history ++ [.literal "b\x7d"]

theorem build_run_history :
    IsReadable history ∧ IsBraceFree history ∧ IsReadable spoiled ∧
    (∃ d, run {} history = .ok d ∧ ¬ d.IsTooLarge ∧ ∃ t, d.build.value = .ok t ∧
      t.text = "/é{id}{n=%2f}" ∧ ∃ u, (Template.compile "/é{id}{n=%2f}").value = .ok u ∧
        u.parts = t.parts.map Part.untyped) ∧
    ∃ d e, run {} spoiled = .ok d ∧ d.build.value = .error e ∧
      e.fault = .unexpectedBrace '}' 15 ∧ e.input = "/é\x7bid\x7d\x7bn=%2f\x7db\x7d" := by
  have hparse : Variable.parse "n=%2f" =
      .ok { name := ⟨"n", by decide⟩, default := some ⟨"%2f", by decide⟩ } :=
    Variable.parse_eq_ok.2 ⟨rfl, rfl⟩
  have hspoiled : IsReadable spoiled := by
    intro text htext
    simp only [spoiled, history, List.cons_append, List.nil_append, List.mem_cons,
      Step.expression.injEq, reduceCtorEq, List.not_mem_nil, or_false, false_or] at htext
    subst htext
    exact ⟨_, hparse⟩
  have hread : IsReadable history := fun text htext => hspoiled text (List.mem_append_left _ htext)
  have hfree : IsBraceFree history := by
    intro text htext
    simp only [history, List.mem_cons, Step.literal.injEq, reduceCtorEq, List.not_mem_nil,
      or_false] at htext
    rcases htext with rfl | rfl <;> decide
  have hbrace : IsFirstBrace spoiled '}' 15 :=
    ⟨history, "b\x7d", [], ['b'], [], rfl, rfl, hfree, by decide, rfl, rfl⟩
  refine ⟨hread, hfree, hspoiled, ?_, ?_⟩
  · obtain ⟨d, hd, -, -, hbuilt, -⟩ := build_run history hread
    have hsize : ¬ d.IsTooLarge := by
      obtain rfl := eq_ofSteps_of_run hd
      exact Template.not_tooLarge_of_isOk rfl
    obtain ⟨t, ht, htext, -, -, u, hu, -, -, -, hparts⟩ := hbuilt hfree hsize
    exact ⟨d, hd, hsize, t, ht, htext, u, hu, hparts⟩
  · obtain ⟨d, hd, -, hfault, -⟩ := build_run spoiled hspoiled
    obtain rfl := eq_ofSteps_of_run hd
    have he := congrArg Logged.value (build_of_isFirstBrace hspoiled hbrace)
    obtain ⟨hinput, -⟩ := hfault _ _ _ he rfl
    exact ⟨_, _, hd, he, rfl, hinput⟩

end Draft
end UriTemplate
