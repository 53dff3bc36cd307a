import UriTemplate.Proofs.Percent.Pieces
import UriTemplate.Proofs.Utf8

/-!
# Encoding, decoding and upper case

* `decodeChars_encodeChars`: decoding undoes encoding, for any text.
* `isEncoded_encodeChars`, `isEncoded_normalizeChars`: what is written into a URI is encoded text.
* `decodeChars_normalizeChars`: the case of the digits of triples does not matter to decoding.
* `decodeChars_eq_nil`: only the empty text stands for nothing.
-/

namespace UriTemplate

/-! ## Digits -/

theorem isHexDigit_hexDigit : ∀ n < 16, isHexDigit (hexDigit n) := by decide

theorem hexValue_hexDigit : ∀ n < 16, hexValue (hexDigit n) = n := by decide

namespace Piece

theorem bytes_ofByte (b : UInt8) : (ofByte b).bytes = [b] := by
  have hb : b.toNat < 256 := b.toNat_lt
  rw [ofByte, bytes, hexValue_hexDigit _ (by omega), hexValue_hexDigit _ (by omega),
    Nat.div_add_mod, UInt8.ofNat_toNat]

theorem bytes_encodeChar (c : Char) : (encodeChar c).flatMap bytes = String.utf8EncodeChar c := by
  unfold encodeChar
  split
  · simp [bytes]
  · rw [List.flatMap_map]
    simp only [bytes_ofByte]
    exact List.flatMap_singleton' _

theorem mem_encodeChar {c : Char} {p : Piece} (h : p ∈ encodeChar c) :
    (∃ b : UInt8, p = ofByte b) ∨ (∃ d, isUnreserved d ∧ p = char d) := by
  unfold encodeChar at h
  split at h
  · rename_i hc
    rw [List.mem_singleton] at h
    exact .inr ⟨c, hc, h⟩
  · obtain ⟨b, -, rfl⟩ := List.mem_map.1 h
    exact .inl ⟨b, rfl⟩

theorem isCanonical_flatMap_encodeChar (cs : List Char) : IsCanonical (cs.flatMap encodeChar) := by
  refine isCanonical_of_forall fun p hp => ?_
  obtain ⟨c, -, hp⟩ := List.mem_flatMap.1 hp
  rcases mem_encodeChar hp with ⟨b, rfl⟩ | ⟨d, hd, rfl⟩
  · have hb : b.toNat < 256 := b.toNat_lt
    exact ⟨isHexDigit_hexDigit _ (by omega), isHexDigit_hexDigit _ (by omega)⟩
  · exact isUnreserved_ne_percentMark hd

theorem bytes_upper {hi lo : Char} (hhi : isHexDigit hi) (hlo : isHexDigit lo) :
    (triple hi lo).upper.bytes = (triple hi lo).bytes := by
  rw [upper, bytes, bytes, hexValue_toUpper hi hhi, hexValue_toUpper lo hlo]

theorem flatMap_bytes_map_upper : ∀ {ps : List Piece}, IsCanonical ps →
    (ps.map upper).flatMap bytes = ps.flatMap bytes
  | [], _ => rfl
  | triple hi lo :: ps, h => by
    rw [List.map_cons, List.flatMap_cons, List.flatMap_cons, bytes_upper h.1 h.2.1,
      flatMap_bytes_map_upper h.2.2]
  | char c :: ps, h => by
    rw [List.map_cons, List.flatMap_cons, List.flatMap_cons, flatMap_bytes_map_upper h.2]
    rfl

theorem bytes_ne_nil (p : Piece) : p.bytes ≠ [] := by
  cases p with
  | triple hi lo => exact List.cons_ne_nil _ _
  | char c => exact String.utf8EncodeChar_ne_nil

end Piece

namespace Percent

/-! ## Encoding -/

/-- Encoding writes canonical pieces, so they are what its result is read as. -/
theorem ofChars_encodeChars (cs : List Char) :
    Piece.ofChars (encodeChars cs) = cs.flatMap Piece.encodeChar :=
  Piece.ofChars_toChars (Piece.isCanonical_flatMap_encodeChar cs)

theorem isEncoded_encodeChars (cs : List Char) : IsEncoded (encodeChars cs) := by
  intro p hp
  rw [ofChars_encodeChars] at hp
  obtain ⟨c, -, hp⟩ := List.mem_flatMap.1 hp
  rcases Piece.mem_encodeChar hp with ⟨b, rfl⟩ | ⟨d, hd, rfl⟩
  · rfl
  · exact hd

theorem decodeChars_encodeChars (cs : List Char) : decodeChars (encodeChars cs) = cs := by
  rw [decodeChars, ofChars_encodeChars, List.flatMap_assoc]
  simp only [Piece.bytes_encodeChar]
  exact Utf8.read_utf8Encode cs

/-! ## Upper case -/

theorem ofChars_normalizeChars (cs : List Char) :
    Piece.ofChars (normalizeChars cs) = (Piece.ofChars cs).map Piece.upper :=
  Piece.ofChars_toChars (Piece.isCanonical_ofChars cs).map_upper

theorem isEncoded_normalizeChars {cs : List Char} :
    IsEncoded (normalizeChars cs) ↔ IsEncoded cs := by
  simp only [IsEncoded, ofChars_normalizeChars, List.forall_mem_map, Piece.isEncoded_upper]

theorem decodeChars_normalizeChars (cs : List Char) :
    decodeChars (normalizeChars cs) = decodeChars cs := by
  rw [decodeChars, ofChars_normalizeChars,
    Piece.flatMap_bytes_map_upper (Piece.isCanonical_ofChars cs), decodeChars]

theorem decodeChars_eq_nil {cs : List Char} : decodeChars cs = [] ↔ cs = [] := by
  refine ⟨fun h => ?_, fun h => ?_⟩
  · rw [decodeChars, Utf8.read_eq_nil, List.flatMap_eq_nil_iff] at h
    rw [← Piece.toChars_ofChars cs]
    cases hps : Piece.ofChars cs with
    | nil => rfl
    | cons p ps => exact absurd (h p (by simp [hps])) (Piece.bytes_ne_nil p)
  · rw [h, decodeChars_nil]

end Percent

end UriTemplate
