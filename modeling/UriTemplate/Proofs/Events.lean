import UriTemplate.Proofs.Drafts
import UriTemplate.Resolution

/-!
# Events

`events_exact`: what is logged, by whom and in which order.

* **Warnings.** Where a template has `}` before `{`, two of its expressions meet (`Seam`), and these
  are the places that compiling warns of, from left to right (`Template.exists_seams`). The induction
  is over the fields: a field adds a seam when the text after it begins with a brace.
* **Compiling and building.** The warnings come before the size is looked at, and one event follows
  if the template is accepted (`Template.events_certify`). A draft and the text it writes differ in
  the types of variables only, and no event shows these (`Template.events_certify_untyped`).
* **Use.** Of a run of questions to a template, exactly those to resolve a candidate that does not
  match leave an event each (`Template.events_session`).
-/

namespace UriTemplate

/-! ## Where expressions meet -/

/-- The places of a text, from left to right, at which a closing brace stands before an opening
one. -/
def seamPlaces (cs : List Char) : List Nat :=
  (List.range cs.length).filter fun i => [expressionEnd, expressionStart].isPrefixOf (cs.drop i)

theorem seamPlaces_cons (c : Char) (cs : List Char) : seamPlaces (c :: cs) =
    (if [expressionEnd, expressionStart].isPrefixOf (c :: cs) then [0] else []) ++
      (seamPlaces cs).map (· + 1) := by
  rw [seamPlaces, List.length_cons, List.range_succ_eq_map, List.filter_cons, List.filter_map,
    List.drop_zero]
  split <;> rfl

theorem seamPlaces_append {a : List Char} (h : expressionEnd ∉ a) (b : List Char) :
    seamPlaces (a ++ b) = (seamPlaces b).map (a.length + ·) := by
  induction a with
  | nil => simp
  | cons c a ih =>
    rw [List.mem_cons, not_or] at h
    obtain ⟨hc, ha⟩ := h
    have hfront : [expressionEnd, expressionStart].isPrefixOf (c :: (a ++ b)) = false := by
      simp [List.isPrefixOf, hc]
    rw [List.cons_append, seamPlaces_cons, hfront, ih ha]
    simp [Function.comp_def, Nat.add_right_comm]

theorem seamPlaces_of_not_mem {cs : List Char} (h : expressionEnd ∉ cs) : seamPlaces cs = [] := by
  have hplaces := seamPlaces_append h []
  rwa [List.append_nil] at hplaces

/-- Plain text in front of a brace ends there. -/
theorem eq_of_isPlain {p q x y : List Char} {c : Char} (hp : IsPlain p) (hq : IsPlain q)
    (hc : isBrace c) (h : p ++ c :: x = q ++ c :: y) : p = q := by
  have htake : ∀ u v, IsPlain u → (u ++ c :: v).takeWhile (!isBrace ·) = u := by
    intro u v hu
    rw [List.takeWhile_append_of_pos hu, List.takeWhile_cons_of_neg (by simpa using hc),
      List.append_nil]
  rw [← htake p x hp, h, htake q y hq]

/-- Two expressions of a text with nothing between them. -/
structure Seam (cs : List Char) where
  before : List Char
  left : Variable
  right : Variable
  after : List Char
  reads : cs = before ++ expressionStart :: left.text.toList ++
    expressionEnd :: expressionStart :: (right.text.toList ++ expressionEnd :: after)

namespace Seam

variable {cs : List Char}

/-- Where the left expression ends. -/
def place (s : Seam cs) : Nat := (s.before ++ expressionStart :: s.left.text.toList).length

/-- The same seam in a text with more in front. -/
def shift (front : List Char) (s : Seam cs) : Seam (front ++ cs) where
  before := front ++ s.before
  left := s.left
  right := s.right
  after := s.after
  reads := (congrArg (front ++ ·) s.reads).trans (by simp)

theorem place_shift (front : List Char) (s : Seam cs) :
    (s.shift front).place = front.length + s.place := by
  simp [place, shift]

/-- What the two expressions say is settled by where they meet: no expression holds a brace. -/
theorem text_eq_of_place_eq {s s' : Seam cs} (h : s.place = s'.place) :
    s.left.text = s'.left.text ∧ s.right.text = s'.right.text := by
  obtain ⟨hfront, hback⟩ := List.append_inj (s.reads.symm.trans s'.reads) h
  have hright := (List.cons.inj (List.cons.inj hback).2).2
  have hleft : s.left.text.toList.reverse ++ expressionStart :: s.before.reverse =
      s'.left.text.toList.reverse ++ expressionStart :: s'.before.reverse := by
    simpa using congrArg List.reverse hfront
  have hplain : ∀ v : Variable, IsPlain v.text.toList.reverse :=
    fun v c hc => v.isPlain_text c (List.mem_reverse.1 hc)
  refine ⟨String.toList_inj.1 (List.reverse_inj.1 ?_), String.toList_inj.1 ?_⟩
  · exact eq_of_isPlain (hplain s.left) (hplain s'.left) rfl hleft
  · exact eq_of_isPlain s.right.isPlain_text s'.right.isPlain_text rfl hright

/-- The warning of a template at a seam. -/
def warning (template : String) (s : Seam cs) : Event :=
  .adjacent template s.left.name.text s.right.name.text

theorem warning_eq_of_place_eq (template : String) {s s' : Seam cs} (h : s.place = s'.place) :
    s.warning template = s'.warning template := by
  have hname : ∀ {v w : Variable}, v.text = w.text → v.name.text = w.name.text := by
    intro v w hvw
    rw [← String.toList_inj, ← v.split_text.1, ← w.split_text.1, hvw]
  obtain ⟨hleft, hright⟩ := text_eq_of_place_eq h
  rw [warning, warning, hname hleft, hname hright]

theorem map_warning_eq (template : String) {seams seams' : List (Seam cs)}
    (h : seams.map place = seams'.map place) :
    seams.map (warning template) = seams'.map (warning template) := by
  induction seams generalizing seams' with
  | nil => rw [List.map_eq_nil_iff.1 h.symm]
  | cons s seams ih =>
    cases seams' with
    | nil => cases h
    | cons s' seams' =>
      obtain ⟨hplace, hplaces⟩ := List.cons.inj h
      rw [List.map_cons, List.map_cons, warning_eq_of_place_eq template hplace, ih hplaces]

end Seam

/-! ## Seams of a template -/

theorem expressionEnd_not_mem {cs : List Char} (h : IsPlain cs) : expressionEnd ∉ cs :=
  fun hmem => absurd (h _ hmem) (by decide)

namespace Field

/-- The text of a field up to the brace that closes it. -/
def opened (f : Field) : List Char := f.before.text.toList ++ expressionStart :: f.slot.text.toList

theorem written_eq (f : Field) : f.written = f.opened ++ [expressionEnd] := by
  simp [written, opened]

theorem expressionEnd_not_mem_opened (f : Field) : expressionEnd ∉ f.opened := by
  rw [opened, List.mem_append, List.mem_cons]
  rintro (hmem | hmem | hmem)
  · exact expressionEnd_not_mem f.before.isPlain hmem
  · exact absurd hmem (by decide)
  · exact expressionEnd_not_mem f.slot.isPlain_text hmem

/-- A field ends at a seam if an expression follows at once; the other seams are those of the rest. -/
theorem seamPlaces_written (f : Field) (rest : List Char) : seamPlaces (f.written ++ rest) =
    (if [expressionStart].isPrefixOf rest then [f.opened.length] else []) ++
      (seamPlaces rest).map (f.written.length + ·) := by
  have hfront : [expressionEnd, expressionStart].isPrefixOf (expressionEnd :: rest) =
      [expressionStart].isPrefixOf rest := rfl
  rw [written_eq, List.append_assoc, seamPlaces_append f.expressionEnd_not_mem_opened,
    List.singleton_append, seamPlaces_cons, hfront, List.map_append, List.map_map]
  split <;> simp [Function.comp_def, Nat.add_assoc, Nat.add_comm 1]

/-- Whether a field begins with its expression. -/
theorem isPrefixOf_written (g : Field) (rest : List Char) :
    [expressionStart].isPrefixOf (g.written ++ rest) = g.before.text.isEmpty := by
  have hplain := g.before.isPlain
  rw [Bool.eq_iff_iff, String.isEmpty_iff, ← String.toList_eq_nil_iff, written]
  cases hbefore : g.before.text.toList with
  | nil => simp [List.isPrefixOf]
  | cons c cs =>
    rw [hbefore] at hplain
    have hc : c ≠ expressionStart := by
      rintro rfl
      exact absurd (hplain _ List.mem_cons_self) (by decide)
    simp [List.isPrefixOf, hc.symm]

def seam (f g : Field) (rest : List Char) (h : g.before.text.isEmpty) :
    Seam (f.written ++ (g.written ++ rest)) where
  before := f.before.text.toList
  left := f.slot
  right := g.slot
  after := rest
  reads := by
    have hbefore : g.before.text.toList = [] := by simpa using h
    simp [written, hbefore]

end Field

namespace Template

theorem adjacent_cons_cons (f g : Field) (fs : List Field) (tail : Literal) :
    adjacent ⟨f :: g :: fs, tail⟩ =
      (if g.before.text.isEmpty then [(f.slot, g.slot)] else []) ++ adjacent ⟨g :: fs, tail⟩ := by
  simp only [adjacent, List.tail_cons, List.zip_cons_cons, List.filterMap_cons]
  split <;> simp_all

/-- A field meets the next one, if there is one and it begins with its expression. -/
theorem exists_first_seams (f : Field) (fs : List Field) (tail : Literal) :
    ∃ seams : List (Seam (f.written ++ (fs.flatMap Field.written ++ tail.text.toList))),
      seams.map Seam.place = (if [expressionStart].isPrefixOf
        (fs.flatMap Field.written ++ tail.text.toList) then [f.opened.length] else []) ∧
      seams.map (fun s => (s.left, s.right)) ++ adjacent ⟨fs, tail⟩ = adjacent ⟨f :: fs, tail⟩ := by
  cases fs with
  | nil =>
    have htail : [expressionStart].isPrefixOf tail.text.toList = false := by
      rw [Bool.eq_false_iff, ne_eq, List.isPrefixOf_iff_prefix]
      rintro ⟨rest, hrest⟩
      have hplain := tail.isPlain expressionStart (by simp [← hrest])
      cases hplain
    exact ⟨[], by rw [List.flatMap_nil, List.nil_append, htail]; rfl, rfl⟩
  | cons g gs =>
    rw [List.flatMap_cons, List.append_assoc, Field.isPrefixOf_written, adjacent_cons_cons]
    by_cases hg : g.before.text.isEmpty
    · rw [if_pos hg, if_pos hg]
      exact ⟨[f.seam g _ hg], rfl, rfl⟩
    · rw [if_neg hg, if_neg hg]
      exact ⟨[], rfl, rfl⟩

theorem exists_seams_fields (fields : List Field) (tail : Literal) :
    ∃ seams : List (Seam (fields.flatMap Field.written ++ tail.text.toList)),
      seams.map Seam.place = seamPlaces (fields.flatMap Field.written ++ tail.text.toList) ∧
      seams.map (fun s => (s.left, s.right)) = adjacent ⟨fields, tail⟩ := by
  induction fields with
  | nil =>
    exact ⟨[], (seamPlaces_of_not_mem (expressionEnd_not_mem tail.isPlain)).symm, rfl⟩
  | cons f fs ih =>
    obtain ⟨seams, hplaces, hpairs⟩ := ih
    obtain ⟨first, hfirst, hadjacent⟩ := exists_first_seams f fs tail
    rw [List.flatMap_cons, List.append_assoc, Field.seamPlaces_written, ← hplaces, ← hfirst,
      ← hadjacent, ← hpairs]
    refine ⟨first ++ seams.map (Seam.shift f.written), ?_, ?_⟩
    · simp [Function.comp_def, Seam.place_shift]
    · simp [Function.comp_def, Seam.shift]

/-- The seams of a template's text are its pairs of adjacent variables. -/
theorem exists_seams (t : Template) : ∃ seams : List (Seam t.text.toList),
    seams.map Seam.place = seamPlaces t.text.toList ∧
      seams.map (fun s => (s.left, s.right)) = t.adjacent := by
  rw [toList_text]
  exact exists_seams_fields t.fields t.tail

/-! ## Compiling and building -/

/-- The event of a template that was accepted. -/
def acceptance (template : String) : Except TemplateError Template → List Event
  | .ok t => [.compiled template t.pattern]
  | .error _ => []

theorem events_certify (t : Template) :
    t.certify.events = t.warnings ++ acceptance t.text t.certify.value := by
  rw [value_certify, certify, Logged.events_bind, Logged.events_emitAll]
  split <;> rfl

theorem warnings_eq {t : Template} {seams : List (Seam t.text.toList)}
    (h : seams.map Seam.place = seamPlaces t.text.toList) :
    t.warnings = seams.map (Seam.warning t.text) := by
  obtain ⟨seams', hplaces, hpairs⟩ := t.exists_seams
  rw [Seam.map_warning_eq t.text (h.trans hplaces.symm), warnings, ← hpairs, List.map_map]
  rfl

theorem events_compile {s : String} {t : Template} (h : scan s.toList = .ok t) :
    (∃ seams : List (Seam s.toList), seams.map Seam.place = seamPlaces s.toList) ∧
    ∀ seams : List (Seam s.toList), seams.map Seam.place = seamPlaces s.toList →
      (compile s).events = seams.map (Seam.warning s) ++ acceptance s (compile s).value := by
  obtain ⟨-, htext⟩ := text_of_scan h
  obtain rfl : t.text = s := String.toList_inj.1 htext
  obtain ⟨seams, hplaces, -⟩ := t.exists_seams
  refine ⟨⟨seams, hplaces⟩, fun seams hplaces => ?_⟩
  rw [compile_of_scan_eq h, events_certify, warnings_eq hplaces]

/-- As many warnings as expressions meet, and a trace if the template was accepted. -/
theorem levels_compile {s : String} {t : Template} (h : scan s.toList = .ok t) :
    (compile s).events.map Event.level = List.replicate (seamPlaces s.toList).length .warn ++
      if (compile s).value.isOk then [.trace] else [] := by
  obtain ⟨⟨seams, hplaces⟩, hevents⟩ := events_compile h
  have hwarn : Event.level ∘ Seam.warning s = fun _ : Seam s.toList => Level.warn := rfl
  rw [hevents seams hplaces, List.map_append, List.map_map, hwarn, List.map_const', ← hplaces,
    List.length_map]
  cases (compile s).value <;> rfl

theorem events_compile_of_error {s : String} {fault : TemplateFault}
    (h : scan s.toList = .error fault) : (compile s).events = [] := by
  rw [compile_of_scan_error h, Logged.events_pure]

/-! ## Types leave no trace -/

theorem adjacent_untyped (t : Template) :
    t.untyped.adjacent = t.adjacent.map (Prod.map Variable.untyped Variable.untyped) := by
  rw [adjacent, adjacent, untyped, ← List.map_tail, List.zip_map, List.filterMap_map,
    List.map_filterMap]
  refine congrArg (List.filterMap · _) (funext fun pair => ?_)
  show (if pair.2.before.text.isEmpty then _ else _) = Option.map _ (if _ then _ else _)
  split <;> rfl

theorem warnings_untyped (t : Template) : t.untyped.warnings = t.warnings := by
  rw [warnings, warnings, text_untyped, adjacent_untyped, List.map_map]
  rfl

theorem events_certify_untyped (t : Template) : t.untyped.certify.events = t.certify.events := by
  simp only [events_certify, warnings_untyped, text_untyped, value_certify, fits_untyped]
  split
  · simp only [acceptance, pattern_untyped]
  · rfl

end Template

namespace Draft

theorem events_build {steps : List Step} {d : Draft} (hrun : run {} steps = .ok d)
    (h : IsBraceFree steps) : d.build.events = (Template.compile (written steps)).events := by
  have hread := isReadable_of_run hrun
  obtain rfl := eq_ofSteps_of_run hrun
  obtain ⟨t, ht, htext, -⟩ := ofParts_ofSteps hread h
  rw [build_of_ofParts ht, ← htext, Template.compile_of_scan_eq t.scan_text_eq_untyped,
    Template.events_certify_untyped]

/-- A draft that is refused for its text is refused before anything is logged. -/
theorem events_build_of_brace {steps : List Step} {d : Draft} (hrun : run {} steps = .ok d)
    (h : ¬ IsBraceFree steps) : d.build.events = [] := by
  have hread := isReadable_of_run hrun
  obtain rfl := eq_ofSteps_of_run hrun
  obtain ⟨c, position, hbrace⟩ := exists_isFirstBrace h
  rw [build_of_isFirstBrace hread hbrace, Logged.events_pure]

end Draft

/-! ## Use -/

/-- A question to a template. -/
inductive Use where
  | accepts (candidate : String)
  | expand {α : Type} [Bindings α] (bindings : α)
  | resolve (candidate : String)

inductive Answer where
  | verdict (b : Bool)
  | uri (text : String)
  | resolution (r : Resolution)

namespace Template

def answer (t : Template) : Use → Logged Answer
  | .accepts candidate => return .verdict (t.accepts candidate)
  | @Use.expand _ _ bindings => return .uri (t.expand bindings)
  | .resolve candidate => return .resolution (← t.resolve candidate)

/-- The answers to questions asked one after the other. -/
def session (t : Template) : List Use → Logged (List Answer)
  | [] => return []
  | use :: uses => return (← t.answer use) :: (← t.session uses)

/-- The event that a question leaves. -/
def trace (t : Template) : Use → List Event
  | .resolve candidate => if t.accepts candidate then [] else [.rejected t.text candidate]
  | _ => []

theorem events_resolve (t : Template) (candidate : String) :
    (t.resolve candidate).events =
      if t.accepts candidate then [] else [.rejected t.text candidate] := by
  unfold resolve accepts
  cases t.segments? candidate.toList <;> rfl

theorem levels_resolve (t : Template) (candidate : String) :
    (t.resolve candidate).events.map Event.level =
      if t.accepts candidate then [] else [.debug] := by
  rw [events_resolve]
  split <;> rfl

theorem events_answer (t : Template) (use : Use) : (t.answer use).events = t.trace use := by
  cases use with
  | accepts candidate => rfl
  | expand bindings => rfl
  | resolve candidate =>
    rw [answer, Logged.events_bind, events_resolve, Logged.events_pure, List.append_nil]
    rfl

theorem events_session (t : Template) (uses : List Use) :
    (t.session uses).events = uses.flatMap t.trace := by
  induction uses with
  | nil => rfl
  | cons use uses ih =>
    rw [session, Logged.events_bind, Logged.events_bind, Logged.events_pure, List.append_nil,
      events_answer, ih, List.flatMap_cons]

end Template

/-! ## All events -/

/-- Every event that is logged. A text that is refused by the grammar logs nothing. Any other logs a
warning for each place where two of its expressions meet, in their order and with the names of their
variables, then a trace of its acceptance unless it is too large. A draft without braces in its
literal text logs what the text it writes does, any other nothing. In use, a template logs each
candidate it cannot resolve, which are those it does not accept, and nothing else. -/
theorem events_exact :
    (∀ (s : String) (fault : TemplateFault), Template.scan s.toList = .error fault →
      (Template.compile s).events = []) ∧
    (∀ (s : String) (t : Template), Template.scan s.toList = .ok t →
      (∃ seams : List (Seam s.toList), seams.map Seam.place = seamPlaces s.toList) ∧
      ∀ seams : List (Seam s.toList), seams.map Seam.place = seamPlaces s.toList →
        (Template.compile s).events = seams.map (Seam.warning s) ++
          Template.acceptance s (Template.compile s).value) ∧
    (∀ (s : String) (t : Template), Template.scan s.toList = .ok t →
      (Template.compile s).events.map Event.level =
        List.replicate (seamPlaces s.toList).length .warn ++
          if (Template.compile s).value.isOk then [.trace] else []) ∧
    (∀ (steps : List Draft.Step) (d : Draft), Draft.run {} steps = .ok d →
      (Draft.IsBraceFree steps →
        d.build.events = (Template.compile (Draft.written steps)).events) ∧
      (¬ Draft.IsBraceFree steps → d.build.events = [])) ∧
    ∀ t : Template, (∀ candidate, (t.resolve candidate).events =
        if t.accepts candidate then [] else [.rejected t.text candidate]) ∧
      (∀ candidate, (t.resolve candidate).events.map Event.level =
        if t.accepts candidate then [] else [.debug]) ∧
      ∀ uses, (t.session uses).events = uses.flatMap t.trace :=
  ⟨fun _ _ h => Template.events_compile_of_error h, fun _ _ h => Template.events_compile h,
    fun _ _ h => Template.levels_compile h,
    fun _ _ hrun => ⟨Draft.events_build hrun, Draft.events_build_of_brace hrun⟩,
    fun t => ⟨t.events_resolve, t.levels_resolve, t.events_session⟩⟩

/-- Two expressions that meet, the first one of a variable with a type, and literal text. -/
def meeting : List Draft.Step :=
  [.slot { name := ⟨"city", by decide⟩, type := some ⟨"word", by decide⟩ }, .expression "zip=%2d",
    .literal "/x"]

/-- The template that these steps write. -/
def met : Template :=
  ⟨[⟨.empty, { name := ⟨"city", by decide⟩ }⟩,
    ⟨.empty, { name := ⟨"zip", by decide⟩, default := some ⟨"%2d", by decide⟩ }⟩],
    ⟨"/x", by decide⟩⟩

theorem events_exact_met :
    (∃ fault, Template.scan ['/', '}'] = .error fault ∧ (Template.compile "/\x7d").events = []) ∧
    Template.scan met.text.toList = .ok met ∧
    (Template.compile met.text).events =
      [.adjacent met.text "city" "zip", .compiled met.text met.pattern] ∧
    Draft.IsBraceFree meeting ∧
    (∃ d, Draft.run {} meeting = .ok d ∧
      d.build.events = [.adjacent met.text "city" "zip", .compiled met.text met.pattern]) ∧
    (∃ d, ¬ Draft.IsBraceFree (meeting ++ [.literal "\x7b"]) ∧
      Draft.run {} (meeting ++ [.literal "\x7b"]) = .ok d ∧ d.build.events = []) ∧
    (met.session [.resolve "/y", .accepts "/y", .resolve "uv/x"]).events =
      [.rejected met.text "/y"] := by
  obtain ⟨hrefused, hcompile, -, hbuild, huse⟩ := events_exact
  have hscan : Template.scan met.text.toList = .ok met := rfl
  have hfree : Draft.IsBraceFree meeting := by
    intro text htext
    simp only [meeting, List.mem_cons, Draft.Step.literal.injEq, reduceCtorEq, List.not_mem_nil,
      or_false, false_or] at htext
    subst htext
    decide
  have hspoiled : ¬ Draft.IsBraceFree (meeting ++ [.literal "\x7b"]) :=
    fun h => absurd (h "\x7b" (by simp)) (by decide)
  have hevents : (Template.compile met.text).events =
      [.adjacent met.text "city" "zip", .compiled met.text met.pattern] :=
    (hcompile _ _ hscan).2
      [⟨[], { name := ⟨"city", by decide⟩ },
        { name := ⟨"zip", by decide⟩, default := some ⟨"%2d", by decide⟩ }, ['/', 'x'], rfl⟩] rfl
  have hwritten : Draft.written meeting = met.text := by decide
  refine ⟨⟨_, rfl, hrefused _ _ rfl⟩, hscan, hevents, hfree, ⟨_, rfl, ?_⟩,
    ⟨_, hspoiled, rfl, (hbuild _ _ rfl).2 hspoiled⟩, (huse met).2.2 _⟩
  rw [(hbuild _ _ rfl).1 hfree, hwritten, hevents]

end UriTemplate
