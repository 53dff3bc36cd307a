import UriTemplate.Proofs.Conversion
import UriTemplate.Proofs.Percent.Image

/-!
# Values and expansions

A variable stands for a plain value and for an encoded one, its expansion. Each falls back from the
bound text to the default and from there to nothing, and they treat the default differently: the
value decodes it, the expansion only writes its digits in upper case.

`Variable.expansion_value`: still the expansion decodes to the value. The value encodes to the
expansion too, unless a default comes in that writes what encoding would not: a triple for an
unreserved character, or bytes that are no text (`Percent.encode_decode_eq_normalize_iff`).
-/

namespace UriTemplate

variable {α : Type} [Bindings α]

/-! ## Defaults that encoding writes -/

theorem Piece.isNeeded_upper {hi lo : Char} (hhi : isHexDigit hi) (hlo : isHexDigit lo) :
    (triple hi lo).upper.isNeeded = (triple hi lo).isNeeded := by
  rw [upper, isNeeded, isNeeded, hexValue_toUpper hi hhi, hexValue_toUpper lo hlo]

theorem Piece.forall_isNeeded_map_upper : ∀ {ps : List Piece}, IsCanonical ps →
    ((∀ p ∈ ps.map upper, p.isNeeded) ↔ ∀ p ∈ ps, p.isNeeded)
  | [], _ => Iff.rfl
  | triple _ _ :: _, h => by
    rw [List.map_cons, List.forall_mem_cons, List.forall_mem_cons, isNeeded_upper h.1 h.2.1,
      forall_isNeeded_map_upper h.2.2]
  | char _ :: _, h => by
    rw [List.map_cons, List.forall_mem_cons, List.forall_mem_cons, forall_isNeeded_map_upper h.2]
    rfl

namespace Percent

theorem isFrugal_normalizeChars (cs : List Char) : IsFrugal (normalizeChars cs) ↔ IsFrugal cs := by
  rw [IsFrugal, IsFrugal, ofChars_normalizeChars]
  exact Piece.forall_isNeeded_map_upper (Piece.isCanonical_ofChars cs)

theorem bytes_normalizeChars (cs : List Char) : bytes (normalizeChars cs) = bytes cs := by
  rw [bytes, bytes, ofChars_normalizeChars,
    Piece.flatMap_bytes_map_upper (Piece.isCanonical_ofChars cs)]

/-- The encoding of what a default stands for is the default in upper case when no triple of it
could be spared and its bytes are UTF-8. -/
theorem encode_decode_eq_normalize_iff (e : Encoded) :
    encode (decode e.text) = normalize e.text ↔
      IsFrugal e.text.toList ∧ (bytes e.text.toList).toByteArray.IsValidUTF8 := by
  have hencoded := isEncoded_normalizeChars.2 e.isEncoded
  have hupper := isUpper_normalizeChars e.text.toList
  rw [← String.toList_inj, toList_encode, toList_decode, toList_normalize,
    ← decodeChars_normalizeChars, encodeChars_decodeChars_iff, exists_encodeChars_iff,
    isFrugal_normalizeChars, bytes_normalizeChars]
  exact ⟨fun h => h.2.2, fun h => ⟨hencoded, hupper, h⟩⟩

theorem decode_eq_empty_iff {s : String} : decode s = "" ↔ s = "" := by
  rw [← String.toList_eq_nil_iff, toList_decode, decodeChars_eq_nil, String.toList_eq_nil_iff]

end Percent

/-! ## Falling back -/

theorem Bindings.bound_or_none (bindings : α) (name : String) :
    (∃ text, valueOf bindings name = some text ∧ text ≠ "") ∨ nonEmpty? bindings name = none := by
  cases h : nonEmpty? bindings name with
  | none => exact .inr rfl
  | some text =>
    obtain ⟨htext, hne⟩ := Option.filter_eq_some_iff.1 h
    exact .inl ⟨text, htext, by simpa using hne⟩

namespace Variable

theorem expansion_of_default {v : Variable} {bindings : α} {e : Encoded}
    (h : Bindings.nonEmpty? bindings v.name.text = none) (hdefault : v.default = some e) :
    v.expansion bindings = Percent.normalize e.text := by
  rw [expansion, h, hdefault]
  rfl

theorem value_of_default {v : Variable} {bindings : α} {e : Encoded}
    (h : Bindings.nonEmpty? bindings v.name.text = none) (hdefault : v.default = some e) :
    v.value bindings = Percent.decode e.text := by
  rw [value, h, hdefault]
  rfl

/-- The expansion decodes to the value, and either is empty only with the other. The value encodes
to the expansion if a text that is not empty is bound, if there is no default, or if the default is
what its own value encodes to but for the case of digits. That is so for the defaults that are UTF-8
and have no triple for a character that needs none. -/
theorem expansion_value (v : Variable) (bindings : α) :
    Percent.decode ((Part.expression v).expansion bindings) = v.value bindings ∧
    ((Part.expression v).expansion bindings = "" ↔ v.value bindings = "") ∧
    ((Part.expression v).expansion bindings = Percent.encode (v.value bindings) ↔
      (∃ text, Bindings.valueOf bindings v.name.text = some text ∧ text ≠ "") ∨
      v.default = none ∨
      ∃ e, v.default = some e ∧ Percent.encode (Percent.decode e.text) = Percent.normalize e.text) ∧
    ∀ e : Encoded, Percent.encode (Percent.decode e.text) = Percent.normalize e.text ↔
      IsFrugal e.text.toList ∧ (Percent.bytes e.text.toList).toByteArray.IsValidUTF8 := by
  show Percent.decode (v.expansion bindings) = _ ∧ (v.expansion bindings = "" ↔ _) ∧
    (v.expansion bindings = _ ↔ _) ∧ _
  refine ⟨v.decode_expansion bindings, ?_, ?_, Percent.encode_decode_eq_normalize_iff⟩
  · rw [← v.decode_expansion bindings, Percent.decode_eq_empty_iff]
  rcases Bindings.bound_or_none bindings v.name.text with ⟨text, htext, hne⟩ | hnone
  · rw [expansion_of_bound htext hne, value_of_bound htext hne]
    exact iff_of_true rfl (.inl ⟨text, htext, hne⟩)
  have hunbound : ¬ ∃ text, Bindings.valueOf bindings v.name.text = some text ∧ text ≠ "" := by
    rintro ⟨text, htext, hne⟩
    rw [Bindings.nonEmpty?_eq_some htext hne] at hnone
    cases hnone
  cases hdefault : v.default with
  | none =>
    rw [expansion, value, hnone, hdefault]
    exact iff_of_true rfl (.inr (.inl rfl))
  | some e =>
    rw [expansion_of_default hnone hdefault, value_of_default hnone hdefault, eq_comm]
    simp [hunbound]

/-- Two defaults that are expanded as they are, though their values would be encoded differently. -/
example :
    Percent.encode (Percent.decode "%41%2f") = "A%2F" ∧ Percent.normalize "%41%2f" = "%41%2F" ∧
    Percent.encode (Percent.decode "%FF") = "%EF%BF%BD" ∧ Percent.normalize "%FF" = "%FF" := by
  decide

end Variable

end UriTemplate
