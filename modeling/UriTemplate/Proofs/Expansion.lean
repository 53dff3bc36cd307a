import UriTemplate.Proofs.Parts
import UriTemplate.Proofs.Resolution

/-!
# Expansion and resolving

What a template expands to is filled by the expansions of its variables (`Template.fills_expand`).
An expansion is encoded text, it is decoded to the value, and only the empty value has an empty one.
So an expansion without empty segments is a URI of its template, and if separators stand between the
variables, resolving gives the values back (`Template.resolve_expand`): then there is no other way
to fill the template.
-/

namespace UriTemplate

variable {α : Type} [Bindings α]

/-! ## Variables -/

namespace Variable

/-- An expansion is nothing, encoded text or a default in upper case. -/
theorem expansion_cases {motive : List Char → Prop} (v : Variable) (bindings : α)
    (nil : motive []) (encoded : ∀ cs, motive (Percent.encodeChars cs))
    (default : ∀ e : Encoded, motive (Percent.normalizeChars e.text.toList)) :
    motive (v.expansion bindings).toList := by
  unfold expansion
  cases Bindings.nonEmpty? bindings v.name.text with
  | some text =>
    show motive (Percent.encode text).toList
    rw [Percent.toList_encode]
    exact encoded _
  | none =>
    cases v.default with
    | none => exact nil
    | some e =>
      show motive (Percent.normalize e.text).toList
      rw [Percent.toList_normalize]
      exact default e

theorem isEncoded_expansion (v : Variable) (bindings : α) :
    IsEncoded (v.expansion bindings).toList := by
  apply v.expansion_cases bindings
  · exact isEncoded_nil
  · exact Percent.isEncoded_encodeChars
  · exact fun e => Percent.isEncoded_normalizeChars.2 e.isEncoded

theorem decode_expansion (v : Variable) (bindings : α) :
    Percent.decode (v.expansion bindings) = v.value bindings := by
  unfold expansion value
  rw [← String.toList_inj, Percent.toList_decode]
  cases Bindings.nonEmpty? bindings v.name.text with
  | some text =>
    show Percent.decodeChars (Percent.encode text).toList = text.toList
    rw [Percent.toList_encode, Percent.decodeChars_encodeChars]
  | none =>
    cases v.default with
    | none => rfl
    | some default =>
      show Percent.decodeChars (Percent.normalize default.text).toList =
        (Percent.decode default.text).toList
      rw [Percent.toList_normalize, Percent.decodeChars_normalizeChars, Percent.toList_decode]

theorem isValue_expansion {v : Variable} {bindings : α} :
    IsValue (v.expansion bindings).toList ↔ v.expansion bindings ≠ "" := by
  rw [IsValue, Ne, String.toList_eq_nil_iff]
  exact and_iff_left (v.isEncoded_expansion bindings)

end Variable

/-! ## Templates -/

namespace Template

/-- The segments that variables become. -/
def expansions (t : Template) (bindings : α) : List (List Char) :=
  t.slots.map fun v => (v.expansion bindings).toList

theorem fills_expand (t : Template) (bindings : α) :
    t.Fills IsEncoded (t.expansions bindings) (t.expand bindings).toList := by
  rw [expand, toList_join_parts fun _ => rfl]
  unfold Template.Fills expansions slots
  induction t.fields with
  | nil => exact .nil
  | cons f fs ih =>
    rw [List.flatMap_cons, List.append_assoc, List.append_assoc]
    exact .cons (f.slot.isEncoded_expansion bindings) ih

theorem forall_expansions {t : Template} {bindings : α} :
    (∀ segment ∈ t.expansions bindings, IsValue segment) ↔
      ∀ v ∈ t.slots, v.expansion bindings ≠ "" := by
  simp only [expansions, List.forall_mem_map, Variable.isValue_expansion]

theorem accepts_expand {t : Template} {bindings : α}
    (h : ∀ v ∈ t.slots, v.expansion bindings ≠ "") : t.accepts (t.expand bindings) = true := by
  have hvalues := forall_expansions.2 h
  exact accepts_iff_fills.2 ⟨_, (t.fills_expand bindings).mono fun v hv _ => hvalues v hv⟩

theorem eq_expansions {t : Template} (hsep : t.IsSeparated) {bindings : α}
    {vs : List (List Char)} (h : t.Fills IsValue vs (t.expand bindings).toList) :
    vs = t.expansions bindings :=
  Template.Fills.unique hsep (UriTemplate.Fills.mono h fun _ _ hv => hv.2) (t.fills_expand bindings)

/-! ## Values -/

theorem lookup_slots {β : Type} (vs : List Variable) (f : Variable → β) (name : String) :
    (vs.map fun v => (v.name.text, f v)).lookup name =
      (vs.find? fun v => v.name.text == name).map f := by
  induction vs with
  | nil => rfl
  | cons v vs ih =>
    rw [List.map_cons, List.lookup_cons, List.find?_cons, ih, BEq.comm]
    cases v.name.text == name <;> rfl

theorem get?_ofSegments_expansions (t : Template) (bindings : α) (name : String) :
    (Resolution.ofSegments t (t.expansions bindings)).get? name =
      (t.slots.reverse.find? fun v => v.name.text == name).map fun v => v.value bindings := by
  have hzip : t.names.zip (t.expansions bindings) =
      t.slots.map fun v => (v.name.text, (v.expansion bindings).toList) := List.zip_map'
  have hvalue : ∀ v : Variable,
      Resolution.valueOf (v.expansion bindings).toList = v.value bindings := by
    intro v
    rw [Resolution.valueOf_eq]
    show Percent.decode (String.ofList (v.expansion bindings).toList) = v.value bindings
    rw [String.ofList_toList, v.decode_expansion]
  rw [Resolution.get?_ofSegments, hzip, ← List.map_reverse, lookup_slots, Option.map_map]
  exact congrArg (Option.map · _) (funext hvalue)

/-- Expanding and resolving. If no variable expands to nothing, the expansion is a URI of the
template. If there is a separator between any two consecutive variables, it is one only then, and
each name gets the value of its last variable back. -/
theorem resolve_expand (t : Template) (bindings : α) :
    ((∀ v ∈ t.slots, v.expansion bindings ≠ "") → t.accepts (t.expand bindings) = true) ∧
    (t.IsSeparated →
      ((t.resolve (t.expand bindings)).value.isResolved = true ↔
        ∀ v ∈ t.slots, v.expansion bindings ≠ "") ∧
      ((∀ v ∈ t.slots, v.expansion bindings ≠ "") →
        (∀ name, name ∈ (t.resolve (t.expand bindings)).value.names ↔ name ∈ t.names) ∧
        ∀ name, (t.resolve (t.expand bindings)).value.get? name =
          (t.slots.reverse.find? fun v => v.name.text == name).map fun v => v.value bindings)) := by
  refine ⟨accepts_expand, fun hsep => ⟨?_, fun hne => ?_⟩⟩
  · rw [isResolved_resolve]
    refine ⟨fun h => ?_, accepts_expand⟩
    obtain ⟨vs, hvs⟩ := accepts_iff_fills.1 h
    obtain rfl := eq_expansions hsep hvs
    exact forall_expansions.1 hvs.forall
  · obtain ⟨vs, hvs⟩ := Option.isSome_iff_exists.1 (accepts_expand hne)
    obtain rfl := eq_expansions hsep (segments?_eq_some hvs).1
    have hlen : (t.expansions bindings).length = t.names.length := by
      rw [expansions, names, List.length_map, List.length_map]
    rw [value_resolve_of_some hvs]
    exact ⟨fun name => Resolution.mem_names_ofSegments hlen, get?_ofSegments_expansions t bindings⟩

/-- `{x}/{y=%c3%a9}./x{x}`: a name used twice, and a separator among characters of values. -/
def repeated : Template :=
  ⟨[⟨.empty, { name := ⟨"x", by decide⟩ }⟩,
    ⟨⟨"/", by decide⟩, { name := ⟨"y", by decide⟩, default := some ⟨"%c3%a9", by decide⟩ }⟩,
    ⟨⟨"./x", by decide⟩, { name := ⟨"x", by decide⟩ }⟩], .empty⟩

theorem resolve_expand_repeated :
    repeated.IsSeparated ∧ (∀ v ∈ repeated.slots, v.expansion [("x", "a/%")] ≠ "") ∧
    repeated.accepts (repeated.expand [("x", "a/%")]) = true ∧
    (repeated.resolve (repeated.expand [("x", "a/%")])).value.get? "x" = some "a/%" ∧
    (repeated.resolve (repeated.expand [("x", "a/%")])).value.get? "y" = some "é" := by
  have hsep : repeated.IsSeparated := by decide
  have hne : ∀ v ∈ repeated.slots, v.expansion [("x", "a/%")] ≠ "" := by decide
  obtain ⟨haccepts, hseparated⟩ := resolve_expand repeated [("x", "a/%")]
  obtain ⟨-, hvalues⟩ := hseparated hsep
  exact ⟨hsep, hne, haccepts hne, ((hvalues hne).2 "x").trans (by decide),
    ((hvalues hne).2 "y").trans (by decide)⟩

end Template

end UriTemplate
