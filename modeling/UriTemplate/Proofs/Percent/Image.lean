import UriTemplate.Proofs.Percent.UpperCase

/-!
# What encoding writes

`Percent.encode_image`: a text is what encoding makes of the text it stands for exactly when it is
encoded, its digits are in upper case, no triple stands for a byte that can be written as itself
(`IsFrugal`), and the bytes it stands for are UTF-8.

Encoding goes byte by byte (`Piece.encodeChar_eq`), so pieces that meet the first three conditions are
written again from their bytes (`Piece.map_encodeByte_bytes`). The fourth says that the bytes are
those of a text.
-/

namespace UriTemplate

/-! ## Well-formed bytes -/

namespace Utf8

theorem isValidUTF8_iff {bytes : List UInt8} :
    bytes.toByteArray.IsValidUTF8 ↔ ∃ cs : List Char, cs.flatMap String.utf8EncodeChar = bytes := by
  refine ⟨fun ⟨cs, hcs⟩ => ⟨cs, ?_⟩, fun ⟨cs, hcs⟩ => ⟨cs, ?_⟩⟩
  · have hlist := congrArg (·.data.toList) hcs
    simp only [List.utf8Encode, List.toList_data_toByteArray] at hlist
    exact hlist.symm
  · rw [List.utf8Encode, hcs]

end Utf8

namespace Piece

/-! ## Byte by byte -/

/-- A byte as it is written: as itself if it is an unreserved character. -/
def encodeByte (b : UInt8) : Piece :=
  if isUnreserved (ByteScan.char b) then char (ByteScan.char b) else ofByte b

theorem isUnreserved_of_mem_utf8EncodeChar {c : Char} {b : UInt8} (hc : isUnreserved c = false)
    (hb : b ∈ String.utf8EncodeChar c) : isUnreserved (ByteScan.char b) = false := by
  by_cases hascii : c.toNat < 128
  · obtain ⟨b', hbytes, hchar, -⟩ := ByteScan.utf8EncodeChar_ascii hascii
    rw [hbytes, List.mem_singleton] at hb
    rw [hb, hchar, hc]
  · have hlarge := ByteScan.not_ascii_of_mem (Nat.not_lt.1 hascii) hb
    rw [Bool.eq_false_iff]
    intro hunreserved
    have hsmall := isUnreserved_toNat_lt hunreserved
    rw [ByteScan.toNat_char] at hsmall
    exact hlarge (UInt8.lt_iff_toNat_lt.2 hsmall)

/-- The bytes of a character are encoded one by one: none of a reserved character is unreserved. -/
theorem encodeChar_eq (c : Char) : encodeChar c = (String.utf8EncodeChar c).map encodeByte := by
  unfold encodeChar
  cases hc : isUnreserved c with
  | true =>
    obtain ⟨b, hbytes, hchar, -⟩ := ByteScan.utf8EncodeChar_ascii (isUnreserved_toNat_lt hc)
    simp [hbytes, encodeByte, hchar, hc]
  | false =>
    refine List.map_congr_left fun b hb => ?_
    rw [encodeByte, isUnreserved_of_mem_utf8EncodeChar hc hb]
    rfl

/-! ## Triples that are needed -/

/-- A triple does not stand for an unreserved character. -/
def isNeeded : Piece → Bool
  | triple hi lo => !isUnreserved (Char.ofNat (16 * hexValue hi + hexValue lo))
  | char _ => true

theorem isNeeded_encodeByte (b : UInt8) : (encodeByte b).isNeeded := by
  unfold encodeByte
  cases hb : isUnreserved (ByteScan.char b) with
  | true => rfl
  | false =>
    have hlt : b.toNat < 256 := b.toNat_lt
    have hvalue : 16 * hexValue (hexDigit (b.toNat / 16)) + hexValue (hexDigit (b.toNat % 16)) =
        b.toNat := by
      rw [hexValue_hexDigit _ (by omega), hexValue_hexDigit _ (by omega), Nat.div_add_mod]
    rw [if_neg Bool.false_ne_true, ofByte, isNeeded, hvalue]
    exact congrArg (!·) hb

theorem hexDigit_hexValue : ∀ c, isHexDigit c → c.isLower = false →
    hexValue c < 16 ∧ hexDigit (hexValue c) = c :=
  forall_isHexDigit (by decide)

theorem encodeByte_triple {hi lo : Char} (hhi : isHexDigit hi) (hlo : isHexDigit lo)
    (hupper : (triple hi lo).isUpper) (hneeded : (triple hi lo).isNeeded) :
    encodeByte (UInt8.ofNat (16 * hexValue hi + hexValue lo)) = triple hi lo := by
  simp only [isUpper, Bool.and_eq_true, Bool.not_eq_true'] at hupper
  simp only [isNeeded, Bool.not_eq_true'] at hneeded
  obtain ⟨hhigh, hhi⟩ := hexDigit_hexValue hi hhi hupper.1
  obtain ⟨hlow, hlo⟩ := hexDigit_hexValue lo hlo hupper.2
  have hbyte : (UInt8.ofNat (16 * hexValue hi + hexValue lo)).toNat =
      16 * hexValue hi + hexValue lo := by
    rw [UInt8.toNat_ofNat', Nat.mod_eq_of_lt (by omega)]
  have hdiv : (16 * hexValue hi + hexValue lo) / 16 = hexValue hi := by omega
  have hmod : (16 * hexValue hi + hexValue lo) % 16 = hexValue lo := by omega
  rw [encodeByte, ByteScan.char, hbyte, hneeded, if_neg Bool.false_ne_true, ofByte, hbyte, hdiv,
    hmod, hhi, hlo]

/-- Pieces as encoding writes them are written again from their bytes. -/
theorem map_encodeByte_bytes : ∀ {ps : List Piece}, IsCanonical ps → (∀ p ∈ ps, p.isEncoded) →
    (∀ p ∈ ps, p.isUpper) → (∀ p ∈ ps, p.isNeeded) → (ps.flatMap bytes).map encodeByte = ps
  | [], _, _, _, _ => rfl
  | p :: ps, hcanonical, hencoded, hupper, hneeded => by
    rw [List.forall_mem_cons] at hencoded hupper hneeded
    rw [List.flatMap_cons, List.map_append]
    cases p with
    | triple hi lo =>
      obtain ⟨hhi, hlo, hcanonical⟩ := hcanonical
      rw [map_encodeByte_bytes hcanonical hencoded.2 hupper.2 hneeded.2, bytes, List.map_singleton,
        encodeByte_triple hhi hlo hupper.1 hneeded.1]
      rfl
    | char c =>
      have hc : isUnreserved c = true := hencoded.1
      rw [map_encodeByte_bytes hcanonical.2 hencoded.2 hupper.2 hneeded.2, bytes, ← encodeChar_eq,
        encodeChar, if_pos hc]
      rfl

end Piece

/-- No triple of a text stands for an unreserved character. -/
def IsFrugal (cs : List Char) : Prop := ∀ p ∈ Piece.ofChars cs, p.isNeeded

namespace Percent

/-- The bytes that a text stands for. -/
def bytes (cs : List Char) : List UInt8 := (Piece.ofChars cs).flatMap Piece.bytes

theorem isFrugal_encodeChars (cs : List Char) : IsFrugal (encodeChars cs) := by
  intro p hp
  rw [ofChars_encodeChars] at hp
  obtain ⟨c, -, hp⟩ := List.mem_flatMap.1 hp
  rw [Piece.encodeChar_eq] at hp
  obtain ⟨b, -, rfl⟩ := List.mem_map.1 hp
  exact Piece.isNeeded_encodeByte b

theorem bytes_encodeChars (cs : List Char) :
    bytes (encodeChars cs) = cs.flatMap String.utf8EncodeChar := by
  rw [bytes, ofChars_encodeChars, List.flatMap_assoc]
  exact congrArg cs.flatMap (funext Piece.bytes_encodeChar)

theorem encodeChars_eq (cs : List Char) : encodeChars cs =
    Piece.toChars ((cs.flatMap String.utf8EncodeChar).map Piece.encodeByte) := by
  rw [encodeChars, List.map_flatMap]
  exact congrArg (Piece.toChars <| cs.flatMap ·) (funext Piece.encodeChar_eq)

/-! ## The image of encoding -/

theorem exists_encodeChars_iff {cs : List Char} : (∃ ds, encodeChars ds = cs) ↔
    IsEncoded cs ∧ IsUpper cs ∧ IsFrugal cs ∧ (bytes cs).toByteArray.IsValidUTF8 := by
  rw [Utf8.isValidUTF8_iff]
  constructor
  · rintro ⟨ds, rfl⟩
    exact ⟨isEncoded_encodeChars ds, isUpper_encodeChars ds, isFrugal_encodeChars ds, ds,
      (bytes_encodeChars ds).symm⟩
  · intro ⟨hencoded, hupper, hfrugal, ds, hbytes⟩
    refine ⟨ds, ?_⟩
    rw [encodeChars_eq, hbytes, bytes,
      Piece.map_encodeByte_bytes (Piece.isCanonical_ofChars cs) hencoded hupper hfrugal,
      Piece.toChars_ofChars]

theorem encodeChars_decodeChars_iff {cs : List Char} :
    encodeChars (decodeChars cs) = cs ↔ ∃ ds, encodeChars ds = cs := by
  refine ⟨fun h => ⟨_, h⟩, ?_⟩
  rintro ⟨ds, rfl⟩
  rw [decodeChars_encodeChars]

theorem isValue_encode (s : String) : encode s = "" ∨ Encoded.isValue (encode s) = true := by
  by_cases hempty : (encode s).toList = []
  · exact .inl (String.toList_eq_nil_iff.1 hempty)
  · refine .inr (decide_eq_true ⟨hempty, ?_⟩)
    rw [toList_encode]
    exact isEncoded_encodeChars s.toList

/-- Decoding undoes the encoding of any text, and what encoding writes is a value in its normal form
unless it is empty. Encoding undoes decoding for what it writes itself and for nothing else: it
leaves no unreserved character as a triple, no digit in lower case and no byte outside UTF-8. -/
theorem encode_image :
    (∀ s : String, decode (encode s) = s ∧
      (encode s = "" ∨ Encoded.isValue (encode s) = true) ∧
      normalize (encode s) = encode s) ∧
    ∀ e : String, encode (decode e) = e ↔
      IsEncoded e.toList ∧ IsUpper e.toList ∧ IsFrugal e.toList ∧
        (bytes e.toList).toByteArray.IsValidUTF8 := by
  refine ⟨fun s => ⟨?_, isValue_encode s, ?_⟩, fun e => ?_⟩
  · rw [← String.toList_inj, toList_decode, toList_encode, decodeChars_encodeChars]
  · rw [← String.toList_inj, toList_normalize, toList_encode]
    exact normalizeChars_eq_self_iff.2 (isUpper_encodeChars s.toList)
  · rw [← String.toList_inj, toList_encode, toList_decode]
    exact encodeChars_decodeChars_iff.trans exists_encodeChars_iff

end Percent

end UriTemplate
