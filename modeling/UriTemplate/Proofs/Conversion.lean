import UriTemplate.Proofs.Expansion

/-!
# From one template to another

A template whose names are all bound to texts that are not empty (`Template.IsBoundBy`) expands to a
URI of its own, and if it is separated, resolving that URI gives the texts back
(`Template.get?_resolve_expand`). What a template resolves from a URI binds its names so, hence the
values of one template carry over to any other that uses no further names
(`Template.resolve_convert`).
-/

namespace UriTemplate

variable {α β : Type} [Bindings α] [Bindings β]

/-! ## Bound names -/

theorem Bindings.nonEmpty?_eq_some {bindings : α} {name text : String}
    (h : valueOf bindings name = some text) (hne : text ≠ "") :
    nonEmpty? bindings name = some text := by
  rw [nonEmpty?, h, Option.filter_some, if_pos (by simpa using hne)]

namespace Variable

theorem expansion_of_bound {v : Variable} {bindings : α} {text : String}
    (h : Bindings.valueOf bindings v.name.text = some text) (hne : text ≠ "") :
    v.expansion bindings = Percent.encode text := by
  rw [expansion, Bindings.nonEmpty?_eq_some h hne]

theorem value_of_bound {v : Variable} {bindings : α} {text : String}
    (h : Bindings.valueOf bindings v.name.text = some text) (hne : text ≠ "") :
    v.value bindings = text := by
  rw [value, Bindings.nonEmpty?_eq_some h hne]

theorem expansion_congr {v : Variable} {bindings : α} {others : β}
    (h : Bindings.nonEmpty? bindings v.name.text = Bindings.nonEmpty? others v.name.text) :
    v.expansion bindings = v.expansion others := by
  rw [expansion, expansion, h]

end Variable

namespace Template

theorem Fills.length_names {t : Template} {P : List Char → Prop} {vs : List (List Char)}
    {cs : List Char} (h : t.Fills P vs cs) : vs.length = t.names.length := by
  rw [h.length, t.length_names]

theorem mem_names_of_mem_slots {t : Template} {v : Variable} (h : v ∈ t.slots) :
    v.name.text ∈ t.names := List.mem_map_of_mem h

/-- Bindings that agree on the names of a template give the same URI. -/
theorem expand_congr {t : Template} {bindings : α} {others : β}
    (h : ∀ name ∈ t.names, Bindings.nonEmpty? bindings name = Bindings.nonEmpty? others name) :
    t.expand bindings = t.expand others := by
  refine congrArg String.join (List.map_congr_left fun p hp => ?_)
  cases p with
  | literal text => rfl
  | expression v =>
    exact Variable.expansion_congr (h _ (mem_names_of_mem_slots (mem_slots.2 hp)))

/-- Every name of a template is bound to a text that is not empty. -/
def IsBoundBy (t : Template) (bindings : α) : Prop :=
  ∀ name ∈ t.names, ∃ text, Bindings.valueOf bindings name = some text ∧ text ≠ ""

variable {t : Template} {bindings : α}

theorem IsBoundBy.expansion_ne (h : t.IsBoundBy bindings) :
    ∀ v ∈ t.slots, v.expansion bindings ≠ "" := by
  intro v hv hempty
  obtain ⟨text, htext, hne⟩ := h _ (mem_names_of_mem_slots hv)
  apply hne
  rw [← Variable.value_of_bound htext hne, ← v.decode_expansion, hempty]
  rfl

/-! ## Resolving an expansion -/

/-- Of a separated template, an expansion resolves to the segments it was put together from. -/
theorem value_resolve_expand (hsep : t.IsSeparated) (h : ∀ v ∈ t.slots, v.expansion bindings ≠ "") :
    (t.resolve (t.expand bindings)).value = .ofSegments t (t.expansions bindings) := by
  obtain ⟨vs, hvs⟩ := Option.isSome_iff_exists.1 (accepts_expand h)
  rw [value_resolve_of_some hvs, eq_expansions hsep (segments?_eq_some hvs).1]

/-- Each name of a separated template gets the text back that it is bound to. -/
theorem get?_resolve_expand (hsep : t.IsSeparated) (h : t.IsBoundBy bindings) {name : String}
    (hname : name ∈ t.names) :
    (t.resolve (t.expand bindings)).value.get? name = Bindings.valueOf bindings name := by
  obtain ⟨text, htext, hne⟩ := h name hname
  rw [value_resolve_expand hsep h.expansion_ne, get?_ofSegments_expansions, htext]
  -- the last variable with the name has the bound text for its value, as any other one has
  obtain ⟨v, hv, hvname⟩ := List.mem_map.1 hname
  have hfind : (t.slots.reverse.find? fun v => v.name.text == name).isSome :=
    List.find?_isSome.2 ⟨v, List.mem_reverse.2 hv, by simpa using hvname⟩
  obtain ⟨w, hw⟩ := Option.isSome_iff_exists.1 hfind
  obtain rfl : w.name.text = name := by simpa using List.find?_some hw
  rw [hw, Option.map_some, Variable.value_of_bound htext hne]

theorem names_resolve_expand (hsep : t.IsSeparated) (h : t.IsBoundBy bindings) (name : String) :
    name ∈ (t.resolve (t.expand bindings)).value.names ↔ name ∈ t.names := by
  rw [value_resolve_expand hsep h.expansion_ne]
  exact Resolution.mem_names_ofSegments (t.fills_expand bindings).length_names

/-! ## What a template resolves -/

theorem isBoundBy_ofSegments {segments : List (List Char)}
    (hlen : segments.length = t.names.length) (hvalues : ∀ s ∈ segments, IsValue s) :
    t.IsBoundBy (Resolution.ofSegments t segments) := by
  intro name hname
  have hsome := Resolution.mem_names.1 ((Resolution.mem_names_ofSegments hlen).2 hname)
  obtain ⟨text, htext⟩ := Option.isSome_iff_exists.1 hsome
  obtain ⟨segment, hmem, rfl⟩ := Resolution.exists_of_get?_ofSegments htext
  exact ⟨_, htext, Resolution.valueOf_ne_empty (hvalues segment hmem)⟩

/-- What a template resolves from one of its URIs binds all its names. -/
theorem isBoundBy_resolve {candidate : String} (h : t.accepts candidate = true) :
    t.IsBoundBy (t.resolve candidate).value := by
  obtain ⟨vs, hvs⟩ := Option.isSome_iff_exists.1 h
  obtain ⟨hfills, -⟩ := segments?_eq_some hvs
  rw [value_resolve_of_some hvs]
  exact isBoundBy_ofSegments hfills.length_names hfills.forall

/-- The URI that a template becomes with what another one resolves from a candidate. -/
def convert (source target : Template) (candidate : String) : String :=
  target.expand (source.resolve candidate).value

theorem convert_of_not_accepts {source target : Template} {candidate : String}
    (h : source.accepts candidate = false) :
    source.convert target candidate = target.expand ([] : List (String × String)) := by
  have hnone : source.segments? candidate.toList = none := by
    rw [accepts, Option.isSome_eq_false_iff] at h
    exact Option.isNone_iff_eq_none.1 h
  rw [convert, value_resolve_of_none hnone]
  exact expand_congr fun _ _ => rfl

/-- Carrying values from one template to another that uses none but its names. What the first
resolves from one of its URIs makes a URI of the second, which resolves to the same values if it is
separated. From any other candidate the second gets what it is without bindings. -/
theorem resolve_convert (source target : Template) (candidate : String) :
    ((∀ name ∈ target.names, name ∈ source.names) → source.accepts candidate = true →
      target.accepts (source.convert target candidate) = true ∧
      (target.IsSeparated →
        (target.resolve (source.convert target candidate)).value.status = .resolved ∧
        (∀ name, name ∈ (target.resolve (source.convert target candidate)).value.names ↔
          name ∈ target.names) ∧
        ∀ name ∈ target.names,
          (target.resolve (source.convert target candidate)).value.get? name =
            (source.resolve candidate).value.get? name)) ∧
    (source.accepts candidate = false →
      source.convert target candidate = target.expand ([] : List (String × String))) := by
  refine ⟨fun hnames haccepts => ?_, convert_of_not_accepts⟩
  have hbound : target.IsBoundBy (source.resolve candidate).value := fun name hname =>
    isBoundBy_resolve haccepts name (hnames name hname)
  refine ⟨accepts_expand hbound.expansion_ne, fun hsep => ⟨?_, ?_, ?_⟩⟩
  · rw [convert, value_resolve_expand hsep hbound.expansion_ne]
    rfl
  · exact names_resolve_expand hsep hbound
  · intro name hname
    exact get?_resolve_expand hsep hbound hname

/-- `/wiki/{lang}:{title}`. -/
def page : Template :=
  ⟨[⟨⟨"/wiki/", by decide⟩, { name := ⟨"lang", by decide⟩ }⟩,
    ⟨⟨":", by decide⟩, { name := ⟨"title", by decide⟩ }⟩], .empty⟩

/-- `?t={title=x}&u={title}`, which uses one name twice and leaves one out. -/
def query : Template :=
  ⟨[⟨⟨"?t=", by decide⟩, { name := ⟨"title", by decide⟩, default := some ⟨"x", by decide⟩ }⟩,
    ⟨⟨"&u=", by decide⟩, { name := ⟨"title", by decide⟩ }⟩], .empty⟩

theorem resolve_convert_page :
    (∀ name ∈ query.names, name ∈ page.names) ∧ query.IsSeparated ∧
    page.accepts "/wiki/fr:caf%c3%a9%2f" = true ∧
    query.accepts (page.convert query "/wiki/fr:caf%c3%a9%2f") = true ∧
    (query.resolve (page.convert query "/wiki/fr:caf%c3%a9%2f")).value.get? "title" = some "café/" ∧
    page.accepts "/wiki/fr" = false ∧
    page.convert query "/wiki/fr" = query.expand ([] : List (String × String)) := by
  have hnames : ∀ name ∈ query.names, name ∈ page.names := by decide
  have hsep : query.IsSeparated := by decide
  have haccepts : page.accepts "/wiki/fr:caf%c3%a9%2f" = true := by decide +kernel
  have hrejects : page.accepts "/wiki/fr" = false := by decide +kernel
  obtain ⟨hconverted, hvalues⟩ := (resolve_convert page query _).1 hnames haccepts
  have htitle := (hvalues hsep).2.2 "title" (by decide)
  exact ⟨hnames, hsep, haccepts, hconverted, htitle.trans (by decide +kernel), hrejects,
    (resolve_convert page query _).2 hrejects⟩

end Template

end UriTemplate
