import UriTemplate.Proofs.Matching.Search
import UriTemplate.Proofs.Percent.UpperCase
import UriTemplate.Proofs.Resolution

/-!
# The case of triples in a candidate

Where no literal holds a mark, a candidate and its normal form resolve alike
(`Template.resolve_normalize`).

A value takes the triples it begins in whole, so the values in front of a text and of its normal form
are the same but for their case (`valueCuts_normalizeChars`). A literal without a mark holds no digit
of a triple either: the mark of that triple would be in the literal, or in a value that ends inside the
triple. So every step of the search goes the same way on both texts (`fillings_normalizeChars`), and
the greedy filling is found at the same places. Decoding does not see the case of what it takes.
-/

namespace UriTemplate

open Percent

/-! ## Literals and values -/

/-- A literal without a mark stands in front of a text exactly if it does so in the normal form. -/
theorem isPrefixOf?_normalizeChars {l : List Char} (hl : percentMark ∉ l) (cs : List Char) :
    l.isPrefixOf? (normalizeChars cs) = (l.isPrefixOf? cs).map normalizeChars := by
  induction l generalizing cs with
  | nil => rfl
  | cons c l ih =>
    obtain ⟨hc, hl⟩ := List.ne_and_not_mem_of_not_mem_cons hl
    have hcons : ∀ d ds, (c :: l).isPrefixOf? (d :: ds) = if c == d then l.isPrefixOf? ds else none :=
      fun _ _ => rfl
    cases cs using Piece.textRec with
    | nil => rfl
    | triple hi lo cs hhi hlo =>
      have hmark : (c == percentMark) = false := beq_false_of_ne (Ne.symm hc)
      rw [normalizeChars_triple hhi hlo, hcons, hcons, hmark]
      rfl
    | char d cs hd =>
      rw [normalizeChars_cons hd, hcons, hcons]
      by_cases hcd : c == d
      · rw [if_pos hcd, if_pos hcd, ih hl]
      · rw [if_neg hcd, if_neg hcd]
        rfl

theorem valueCuts_normalizeChars (cs : List Char) : valueCuts (normalizeChars cs) =
    (valueCuts cs).map fun q => (normalizeChars q.1, normalizeChars q.2) := by
  induction cs using unitRec with
  | nil => rfl
  | unit u cs hu ih =>
    have hunit := normalizeChars_unit hu
    rw [(hunit cs).2.2, valueCuts_unit (hunit cs).1, ih, valueCuts_unit hu]
    simp [(hunit _).2.2]
  | other c cs hc hs =>
    rw [normalizeChars_cons hs, valueCuts_other hc hs, valueCuts_other hc]
    · rfl
    · rwa [startsTriple_normalizeChars]

/-! ## Fillings -/

theorem normalizeChars_eq_iff {l : List Char} (hl : percentMark ∉ l) {cs : List Char} :
    normalizeChars cs = l ↔ cs = l := by
  have hwhole : ∀ cs, cs = l ↔ l.isPrefixOf? cs = some [] := by
    intro cs
    rw [List.isPrefixOf?_eq_some_iff_append_eq, List.append_nil, eq_comm]
  rw [hwhole, isPrefixOf?_normalizeChars hl, Option.map_eq_some_iff, hwhole]
  simp only [normalizeChars_eq_nil, exists_eq_right]

theorem fillings_normalizeChars {tail : List Char} {fs : List Field} (htail : percentMark ∉ tail)
    (hfs : ∀ f ∈ fs, percentMark ∉ f.before.text.toList) (cs : List Char) :
    fillings tail fs (normalizeChars cs) =
      (fillings tail fs cs).map (List.map normalizeChars) := by
  induction fs generalizing cs with
  | nil =>
    rw [fillings, fillings]
    simp only [normalizeChars_eq_iff htail]
    split <;> rfl
  | cons f fs ih =>
    obtain ⟨hf, hfs⟩ := List.forall_mem_cons.1 hfs
    rw [fillings, fillings, isPrefixOf?_normalizeChars hf]
    cases f.before.text.toList.isPrefixOf? cs with
    | none => rfl
    | some rest =>
      simp only [Option.map_some]
      rw [valueCuts_normalizeChars, List.flatMap_map, List.map_flatMap]
      simp only [ih hfs, List.map_map]
      rfl

/-! ## Templates -/

namespace Resolution

theorem bind_normalizeChars (names : List String) (segments : List (List Char)) :
    bind names (segments.map normalizeChars) = bind names segments := by
  unfold bind
  rw [List.zip_map_right, List.foldl_map]
  simp only [Prod.map, id, decodeChars_normalizeChars]

end Resolution

namespace Template

variable {t : Template}

/-- No literal of a template holds the mark of a triple. -/
def IsMarkless (t : Template) : Prop :=
  ∀ text, .literal text ∈ t.parts → percentMark ∉ text.toList

theorem IsMarkless.not_mem (h : t.IsMarkless) {l : Literal} (hl : l.parts ⊆ t.parts) :
    percentMark ∉ l.text.toList := by
  by_cases hempty : l.text = ""
  · rw [hempty]
    exact List.not_mem_nil
  · rw [Literal.parts_of_ne hempty] at hl
    exact h _ (hl List.mem_cons_self)

theorem segments?_normalizeChars (h : t.IsMarkless) (cs : List Char) :
    t.segments? (normalizeChars cs) = (t.segments? cs).map (List.map normalizeChars) := by
  have htail : percentMark ∉ t.tail.text.toList := h.not_mem (List.subset_append_right _ _)
  have hfields : ∀ f ∈ t.fields, percentMark ∉ f.before.text.toList := by
    intro f hf
    refine h.not_mem fun p hp => List.mem_append_left _ ?_
    exact List.mem_flatMap.2 ⟨f, hf, List.mem_append_left _ hp⟩
  rw [segments?_eq_head?, segments?_eq_head?, fillings_normalizeChars htail hfields, List.head?_map]

/-- Where no literal holds a mark, the normal form of a candidate is taken apart at the same places
as the candidate, into the normal forms of its segments. So one resolves if the other does, to the
same names with the same values. -/
theorem resolve_normalize (t : Template) (h : t.IsMarkless) (candidate : String) :
    t.segments? (normalize candidate).toList =
      (t.segments? candidate.toList).map (List.map normalizeChars) ∧
    (t.resolve (normalize candidate)).value = (t.resolve candidate).value ∧
    t.accepts (normalize candidate) = t.accepts candidate := by
  have hsegments : t.segments? (normalize candidate).toList =
      (t.segments? candidate.toList).map (List.map normalizeChars) := by
    rw [toList_normalize, segments?_normalizeChars h]
  refine ⟨hsegments, ?_, ?_⟩
  · cases hs : t.segments? candidate.toList with
    | none =>
      rw [hs] at hsegments
      rw [value_resolve_of_none hsegments, value_resolve_of_none hs]
    | some segments =>
      rw [hs] at hsegments
      rw [value_resolve_of_some hsegments, value_resolve_of_some hs, Resolution.ofSegments,
        Resolution.bind_normalizeChars]
      rfl
  · rw [accepts, hsegments, Option.isSome_map, accepts]

-- a mark in a literal takes the digits behind it out of the reach of values
example : let t : Template := ⟨[], ⟨"%2f", by decide⟩⟩
    t.accepts "%2f" = true ∧ t.accepts (normalize "%2f") = false := by decide +kernel

/-- `{first}{second}f{third}`: two adjacent variables, then a literal that could be a digit. -/
def digited : Template :=
  ⟨[⟨.empty, { name := ⟨"first", by decide⟩ }⟩, ⟨.empty, { name := ⟨"second", by decide⟩ }⟩,
    ⟨⟨"f", by decide⟩, { name := ⟨"third", by decide⟩ }⟩], .empty⟩

theorem resolve_normalize_digited :
    digited.IsMarkless ∧ normalize "x%2ff%c3%a9" = "x%2Ff%C3%A9" ∧
    digited.segments? "x%2Ff%C3%A9".toList =
      some [['x'], ['%', '2', 'F'], ['%', 'C', '3', '%', 'A', '9']] ∧
    (digited.resolve "x%2Ff%C3%A9").value = (digited.resolve "x%2ff%c3%a9").value ∧
    digited.accepts "x%2Ff%C3%A9" = true := by
  have hmarkless : digited.IsMarkless := by
    intro text htext
    obtain rfl : text = "f" := by simpa [digited, parts, Literal.parts, Literal.empty] using htext
    decide
  have hnormal : normalize "x%2ff%c3%a9" = "x%2Ff%C3%A9" := by decide +kernel
  obtain ⟨hsegments, hvalue, haccepts⟩ := resolve_normalize digited hmarkless "x%2ff%c3%a9"
  rw [hnormal] at hsegments hvalue haccepts
  refine ⟨hmarkless, hnormal, hsegments.trans ?_, hvalue, haccepts.trans ?_⟩
  · decide +kernel
  · decide +kernel

end Template

end UriTemplate
