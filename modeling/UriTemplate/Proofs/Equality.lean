import UriTemplate.Proofs.Drafts
import UriTemplate.Proofs.Regex.Shape
import UriTemplate.Proofs.Resolution

/-!
# Equal templates

Templates are compared by their parts, not by the texts they come from. Still they are equal exactly
when they are written the same and their variables have the same types, wherever they come from
(`Template.eq_iff_written`).

* `Template.eq_iff_text`: the text gives back all but the types, because scanning it does.
* `Template.agree_of_text_eq`: a template does the same without its types. So templates that are
  written the same have one pattern, the same expansions and the same resolutions.
-/

namespace UriTemplate

/-! ## Text and types -/

theorem Field.eq_of_untyped {f g : Field} (h : f.untyped = g.untyped)
    (htype : f.slot.type = g.slot.type) : f = g := by
  obtain ⟨before, name, default, type⟩ := f
  obtain ⟨before', name', default', type'⟩ := g
  cases h
  cases htype
  rfl

namespace Template

/-- The types of the variables in order. -/
def types (t : Template) : List (Option Name) := t.slots.map Variable.type

theorem eq_of_untyped {t u : Template} (h : t.untyped = u.untyped) (htypes : t.types = u.types) :
    t = u := by
  obtain ⟨fs, tail⟩ := t
  obtain ⟨gs, tail'⟩ := u
  obtain ⟨hfields, rfl⟩ := Template.mk.inj h
  simp only [types, slots, List.map_map] at htypes
  -- what is left of a field and its type say what the field is
  have hpairs : fs.map (fun f => (f.untyped, f.slot.type)) =
      gs.map fun f => (f.untyped, f.slot.type) := by
    rw [← List.zip_map', ← List.zip_map', hfields]
    exact congrArg (List.zip _) htypes
  have hinj : ∀ f g : Field, (f.untyped, f.slot.type) = (g.untyped, g.slot.type) → f = g :=
    fun f g hfg => Field.eq_of_untyped (Prod.mk.inj hfg).1 (Prod.mk.inj hfg).2
  rw [(List.map_inj_right hinj).1 hpairs]

theorem untyped_eq_of_text_eq {t u : Template} (h : t.text = u.text) : t.untyped = u.untyped := by
  have hscan := t.scan_text_eq_untyped
  rw [h, u.scan_text_eq_untyped] at hscan
  exact (Except.ok.inj hscan).symm

theorem eq_iff_text {t u : Template} : t = u ↔ t.text = u.text ∧ t.types = u.types := by
  refine ⟨fun h => h ▸ ⟨rfl, rfl⟩, fun ⟨htext, htypes⟩ => ?_⟩
  exact eq_of_untyped (untyped_eq_of_text_eq htext) htypes

theorem eq_iff_parts {t u : Template} : t = u ↔ t.parts = u.parts := by
  refine ⟨congrArg parts, fun h => eq_iff_text.2 ⟨?_, ?_⟩⟩
  · rw [text, text, h]
  · rw [types, types, ← filterMap_slot?_parts, ← filterMap_slot?_parts, h]

/-! ## What templates do -/

/-- Two templates are written the same, have one pattern and the same names, expand to the same and
answer the same, with the same events, for every candidate. -/
structure Agree (t u : Template) : Prop where
  text : t.text = u.text
  pattern : t.pattern = u.pattern
  names : t.names = u.names
  expand : ∀ {α : Type} [Bindings α] (bindings : α), t.expand bindings = u.expand bindings
  accepts : ∀ candidate, t.accepts candidate = u.accepts candidate
  status : ∀ candidate, (t.resolve candidate).value.status = (u.resolve candidate).value.status
  values : ∀ candidate, (t.resolve candidate).value.values = (u.resolve candidate).value.values
  events : ∀ candidate, (t.resolve candidate).events = (u.resolve candidate).events

theorem shape_untyped (t : Template) : t.untyped.shape = t.shape := by
  rw [shape, shape, parts_untyped, List.map_map]
  refine List.map_congr_left fun p _ => ?_
  cases p <;> rfl

theorem resolve_congr {t u : Template} (htext : t.text = u.text) (hnames : t.names = u.names)
    {candidate : String} (hsegments : t.segments? candidate.toList = u.segments? candidate.toList) :
    (t.resolve candidate).value.status = (u.resolve candidate).value.status ∧
    (t.resolve candidate).value.values = (u.resolve candidate).value.values ∧
    (t.resolve candidate).events = (u.resolve candidate).events := by
  rw [resolve, resolve, hsegments, htext]
  cases u.segments? candidate.toList with
  | none => exact ⟨rfl, rfl, rfl⟩
  | some segments => exact ⟨rfl, congrArg (Resolution.bind · segments) hnames, rfl⟩

theorem agree_of_text_eq {t u : Template} (h : t.text = u.text) : t.Agree u := by
  have huntyped := untyped_eq_of_text_eq h
  have hshape : t.shape = u.shape := by rw [← t.shape_untyped, huntyped, u.shape_untyped]
  have hnames : t.names = u.names := by rw [← t.names_untyped, huntyped, u.names_untyped]
  have hsegments : ∀ cs, t.segments? cs = u.segments? cs := segments?_eq_of_shape_eq hshape
  exact
    { text := h
      pattern := pattern_eq_of_shape_eq hshape
      names := hnames
      expand := fun bindings => by rw [← t.expand_untyped, huntyped, u.expand_untyped]
      accepts := fun _ => by rw [accepts, accepts, hsegments]
      status := fun _ => (resolve_congr h hnames (hsegments _)).1
      values := fun _ => (resolve_congr h hnames (hsegments _)).2.1
      events := fun _ => (resolve_congr h hnames (hsegments _)).2.2 }

/-! ## Where templates come from -/

/-- A template is compiled from a text, or built from steps that write it. -/
inductive ComesFrom (t : Template) : String → Prop
  | compiled {s : String} : (compile s).value = .ok t → ComesFrom t s
  | built {steps : List Draft.Step} {d : Draft} :
      Draft.run {} steps = .ok d → d.build.value = .ok t → ComesFrom t (Draft.written steps)

theorem ComesFrom.text_eq {t : Template} {s : String} (h : t.ComesFrom s) : t.text = s := by
  cases h with
  | compiled h => exact String.toList_inj.1 (text_of_scan (scan_of_compile h)).2
  | built hrun h => exact Draft.text_of_build hrun h

/-- A template is written as what it comes from. Templates are equal exactly when their parts are, and
that is when they are written the same and have the same types. Compiled templates have no types, so
for them the texts decide. Whatever is written the same does the same, even with other types. -/
theorem eq_iff_written {t u : Template} {s s' : String} (ht : t.ComesFrom s)
    (hu : u.ComesFrom s') :
    (t.text = s ∧ u.text = s') ∧
    ((t == u) = true ↔ t.parts = u.parts) ∧
    ((t == u) = true ↔ s = s' ∧ t.types = u.types) ∧
    ((compile s).value = .ok t → (compile s').value = .ok u → ((t == u) = true ↔ s = s')) ∧
    (s = s' → t.Agree u) := by
  have htext : t.text = u.text ↔ s = s' := by rw [ht.text_eq, hu.text_eq]
  have heq : t = u ↔ s = s' ∧ t.types = u.types := by rw [eq_iff_text, htext]
  rw [beq_iff_eq]
  refine ⟨⟨ht.text_eq, hu.text_eq⟩, eq_iff_parts, heq, fun hcompile hcompile' => ⟨fun h => (heq.1 h).1, ?_⟩,
    fun h => agree_of_text_eq (htext.2 h)⟩
  rintro rfl
  exact Except.ok.inj (hcompile.symm.trans hcompile')

/-- `/a/{tag=}`, where the variable has a type. -/
def tagged : Template :=
  ⟨[⟨⟨"/a/", by decide⟩,
    ⟨⟨"tag", by decide⟩, some ⟨"", by decide⟩, some ⟨"label", by decide⟩⟩⟩], .empty⟩

def tagging : List Draft.Step :=
  [.literal "/a", .literal "/",
    .slot ⟨⟨"tag", by decide⟩, some ⟨"", by decide⟩, some ⟨"label", by decide⟩⟩]

/-- `/a/{tag}`, which has no default, not even an empty one. -/
def bare : Template := ⟨[⟨⟨"/a/", by decide⟩, { name := ⟨"tag", by decide⟩ }⟩], .empty⟩

theorem eq_iff_written_tagged :
    tagged.untyped.ComesFrom "/a/{tag=}" ∧ tagged.ComesFrom (Draft.written tagging) ∧
    "/a/{tag=}" = Draft.written tagging ∧ tagged.untyped.Agree tagged ∧
    ¬ (tagged.untyped == tagged) = true ∧ ¬ (tagged.untyped == bare) = true := by
  have hcompile : (compile "/a/{tag=}").value = .ok tagged.untyped := rfl
  have hbare : (compile "/a/{tag}").value = .ok bare := rfl
  have hrun : Draft.run {} tagging = .ok (Draft.ofSteps tagging) := rfl
  have hbuilt : tagged.ComesFrom (Draft.written tagging) := .built hrun rfl
  have hwritten : "/a/{tag=}" = Draft.written tagging := by decide
  obtain ⟨-, -, htypes, -, hagree⟩ := eq_iff_written (.compiled hcompile) hbuilt
  obtain ⟨-, -, -, htexts, -⟩ := eq_iff_written (.compiled hcompile) (.compiled hbare)
  refine ⟨.compiled hcompile, hbuilt, hwritten, hagree hwritten, fun h => ?_, fun h => ?_⟩
  · exact absurd (htypes.1 h).2 (by decide)
  · exact absurd ((htexts hcompile hbare).1 h) (by decide)

end Template

end UriTemplate
