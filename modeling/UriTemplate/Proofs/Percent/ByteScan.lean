import UriTemplate.Proofs.Percent.Pieces

/-!
# Validation byte by byte

`ByteScan.run`: a scan over the UTF-8 bytes of a text that steps over a byte or over a whole triple
and stops at the first byte that belongs to no value. `ByteScan.fault?_eq` says that it finds what
`Encoded.fault?` finds on the pieces of the text, at the same byte. Bytes of a character beyond
ASCII are no digits, marks or unreserved characters, so the scan cannot mistake their middle for
anything.
-/

namespace UriTemplate

/-! ## Characters of one byte -/

theorem utf8Size_eq_one {c : Char} (h : c.toNat < 128) : c.utf8Size = 1 := by
  have hc : c.toNat = c.val.toNat := rfl
  rw [Char.utf8Size_eq_one_iff, UInt32.le_iff_toNat_le]
  exact Nat.le_of_lt_succ (hc ▸ h)

theorem IsUnit.toNat_lt {u : List Char} (h : IsUnit u) : ∀ c ∈ u, c.toNat < 128 := by
  cases h with
  | char hc => simpa using isUnreserved_toNat_lt hc
  | triple hhi hlo =>
    simpa using ⟨by decide, isHexDigit_toNat_lt hhi, isHexDigit_toNat_lt hlo⟩

theorem byteLength_eq_length {cs : List Char} (h : ∀ c ∈ cs, c.toNat < 128) :
    byteLength cs = cs.length := by
  induction cs with
  | nil => rfl
  | cons c cs ih =>
    rw [byteLength_cons, List.length_cons, utf8Size_eq_one (h c List.mem_cons_self),
      ih fun d hd => h d (List.mem_cons_of_mem _ hd), Nat.add_comm]

/-! ## Faults by the front of a text -/

theorem fault?_unit {u : List Char} (h : IsUnit u) (cs : List Char) :
    Encoded.fault? (u ++ cs) = (Encoded.fault? cs).map (u.length + ·) := by
  have hread : ∃ p : Piece, p.isEncoded ∧ p.text = u ∧
      Piece.ofChars (u ++ cs) = p :: Piece.ofChars cs := by
    cases h with
    | @char c hc =>
      have hs := Piece.startsTriple_of_ne (isUnreserved_ne_percentMark hc) cs
      exact ⟨.char c, hc, rfl, Piece.ofChars_cons hs⟩
    | @triple hi lo hhi hlo => exact ⟨.triple hi lo, rfl, rfl, Piece.ofChars_triple hhi hlo cs⟩
  obtain ⟨p, hp, htext, hread⟩ := hread
  have hlen := byteLength_eq_length h.toNat_lt
  simp only [Encoded.fault?, hread, List.find?_cons, List.takeWhile_cons, hp, Bool.not_true,
    if_true, Option.map_map]
  simp [htext, hlen, Function.comp_def]

theorem fault?_other {c : Char} {cs : List Char} (hc : isUnreserved c = false)
    (hs : Piece.startsTriple (c :: cs) = false) : Encoded.fault? (c :: cs) = some 0 := by
  simp [Encoded.fault?, Piece.ofChars_cons hs, Piece.isEncoded, hc]

/-! ## The scan -/

namespace ByteScan

def char (b : UInt8) : Char := Char.ofNat b.toNat

/-- The offset of the first byte that belongs to no value, for bytes from `offset` on. -/
def run (offset : Nat) : List UInt8 → Option Nat
  | [] => none
  | b :: bs =>
    if char b = percentMark then
      match bs with
      | hi :: lo :: bs =>
        if isHexDigit (char hi) && isHexDigit (char lo) then run (offset + 3) bs else some offset
      | _ => some offset
    else if b < 0x80 && isUnreserved (char b) then run (offset + 1) bs
    else some offset

theorem toNat_char (b : UInt8) : (char b).toNat = b.toNat := by
  have hb := b.toNat_lt
  have hvalid : b.toNat.isValidChar := .inl (by omega)
  have hchar : char b = Char.ofNatAux b.toNat hvalid := dif_pos hvalid
  rw [hchar]
  rfl

/-! ## Bytes of characters -/

theorem utf8EncodeChar_ascii {c : Char} (h : c.toNat < 128) :
    ∃ b : UInt8, String.utf8EncodeChar c = [b] ∧ char b = c ∧ b < 0x80 := by
  have hc : c.toNat = c.val.toNat := rfl
  have hb : (UInt8.ofNat c.toNat).toNat = c.toNat := by
    rw [UInt8.toNat_ofNat', Nat.mod_eq_of_lt (by omega)]
  refine ⟨UInt8.ofNat c.toNat, ?_, ?_, ?_⟩
  · unfold String.utf8EncodeChar
    simp only
    rw [if_pos (by omega), hc]
  · rw [char, hb, Char.ofNat_toNat]
  · rw [UInt8.lt_iff_toNat_lt, hb]
    exact h

theorem not_ascii_of_mem {c : Char} {b : UInt8} (h : 128 ≤ c.toNat)
    (hb : b ∈ String.utf8EncodeChar c) : ¬ b < 0x80 := by
  have hc : c.toNat = c.val.toNat := rfl
  have hbyte : ∀ n, 128 ≤ n → n < 256 → ¬ UInt8.ofNat n < 0x80 := by
    intro n hn hn'
    rw [UInt8.lt_iff_toNat_lt, UInt8.toNat_ofNat', Nat.mod_eq_of_lt (by omega)]
    exact Nat.not_lt.2 hn
  unfold String.utf8EncodeChar at hb
  simp only at hb
  rw [if_neg (by omega)] at hb
  split at hb
  · simp only [List.mem_cons, List.not_mem_nil, or_false] at hb
    rcases hb with rfl | rfl
    all_goals exact hbyte _ (by omega) (by omega)
  split at hb
  · simp only [List.mem_cons, List.not_mem_nil, or_false] at hb
    rcases hb with rfl | rfl | rfl
    all_goals exact hbyte _ (by omega) (by omega)
  · simp only [List.mem_cons, List.not_mem_nil, or_false] at hb
    rcases hb with rfl | rfl | rfl | rfl
    all_goals exact hbyte _ (by omega) (by omega)

theorem utf8EncodeChar_other {c : Char} (h : 128 ≤ c.toNat) :
    ∃ b bs, String.utf8EncodeChar c = b :: bs ∧ ¬ b < 0x80 := by
  obtain ⟨b, bs, hbytes⟩ := List.exists_cons_of_ne_nil (String.utf8EncodeChar_ne_nil (c := c))
  exact ⟨b, bs, hbytes, not_ascii_of_mem h (hbytes ▸ List.mem_cons_self)⟩

/-- A byte of ASCII at the front of the bytes of a text is a character. -/
theorem eq_cons_of_ascii {cs : List Char} {b : UInt8} {bs : List UInt8} (hb : b < 0x80)
    (h : cs.flatMap String.utf8EncodeChar = b :: bs) :
    ∃ rest, cs = char b :: rest ∧ rest.flatMap String.utf8EncodeChar = bs := by
  cases cs with
  | nil => cases h
  | cons c cs =>
    rw [List.flatMap_cons] at h
    by_cases hc : c.toNat < 128
    · obtain ⟨b', hbytes, rfl, -⟩ := utf8EncodeChar_ascii hc
      rw [hbytes] at h
      obtain ⟨rfl, rfl⟩ := List.cons.inj h
      exact ⟨cs, rfl, rfl⟩
    · obtain ⟨b', bs', hbytes, hb'⟩ := utf8EncodeChar_other (Nat.not_lt.1 hc)
      rw [hbytes] at h
      obtain ⟨rfl, -⟩ := List.cons.inj h
      exact absurd hb hb'

theorem lt_of_isHexDigit {b : UInt8} (h : isHexDigit (char b)) : b < 0x80 := by
  have hb := isHexDigit_toNat_lt h
  rw [toNat_char] at hb
  rw [UInt8.lt_iff_toNat_lt]
  exact hb

/-! ## The scan by the front of a text -/

theorem run_unit {u : List Char} (h : IsUnit u) (offset : Nat) (bs : List UInt8) :
    run offset (u.flatMap String.utf8EncodeChar ++ bs) = run (offset + u.length) bs := by
  cases h with
  | char hc =>
    obtain ⟨b, hbytes, rfl, hb⟩ := utf8EncodeChar_ascii (isUnreserved_toNat_lt hc)
    rw [List.flatMap_singleton, hbytes, List.singleton_append, run.eq_def]
    simp [hc, hb, isUnreserved_ne_percentMark hc]
  | triple hhi hlo =>
    obtain ⟨b, hbytes, hb, -⟩ := utf8EncodeChar_ascii (c := percentMark) (by decide)
    obtain ⟨b₁, hbytes₁, rfl, -⟩ := utf8EncodeChar_ascii (isHexDigit_toNat_lt hhi)
    obtain ⟨b₂, hbytes₂, rfl, -⟩ := utf8EncodeChar_ascii (isHexDigit_toNat_lt hlo)
    simp [hbytes, hbytes₁, hbytes₂, run, hb, hhi, hlo]

theorem run_other {c : Char} {cs : List Char} (hc : isUnreserved c = false)
    (hs : Piece.startsTriple (c :: cs) = false) (offset : Nat) :
    run offset ((c :: cs).flatMap String.utf8EncodeChar) = some offset := by
  rw [List.flatMap_cons]
  by_cases hascii : c.toNat < 128
  · obtain ⟨b, hbytes, rfl, -⟩ := utf8EncodeChar_ascii hascii
    rw [hbytes, List.singleton_append, run.eq_def]
    by_cases hmark : char b = percentMark
    · simp only [hmark, if_true]
      split
      · rename_i hi lo bs heq
        rw [if_neg]
        intro hdigits
        obtain ⟨hhi, hlo⟩ := Bool.and_eq_true_iff.1 hdigits
        obtain ⟨rest, rfl, hrest⟩ := eq_cons_of_ascii (lt_of_isHexDigit hhi) heq
        obtain ⟨rest', rfl, -⟩ := eq_cons_of_ascii (lt_of_isHexDigit hlo) hrest
        simp [Piece.startsTriple, hmark, hhi, hlo] at hs
      · rfl
    · simp [hmark, hc]
  · obtain ⟨b, bs, hbytes, hb⟩ := utf8EncodeChar_other (Nat.not_lt.1 hascii)
    have hmark : char b ≠ percentMark := by
      intro heq
      have hcode := congrArg Char.toNat heq
      rw [toNat_char] at hcode
      rw [UInt8.lt_iff_toNat_lt, hcode] at hb
      exact hb (by decide)
    rw [hbytes, List.cons_append, run.eq_def]
    simp [hmark, hb]

/-! ## A whole text -/

theorem run_utf8Encode (cs : List Char) (offset : Nat) :
    run offset (cs.flatMap String.utf8EncodeChar) = (Encoded.fault? cs).map (offset + ·) := by
  induction cs using unitRec generalizing offset with
  | nil => rfl
  | unit u cs hu ih =>
    rw [List.flatMap_append, run_unit hu, ih, fault?_unit hu, Option.map_map]
    simp [Function.comp_def, Nat.add_assoc]
  | other c cs hc hs => rw [run_other hc hs, fault?_other hc hs, Option.map_some, Nat.add_zero]

def fault? (s : String) : Option Nat := run 0 s.toByteArray.data.toList

theorem fault?_eq (s : String) : fault? s = Encoded.fault? s.toList := by
  have hbytes : s.toByteArray.data.toList = s.toList.flatMap String.utf8EncodeChar := by
    rw [← String.utf8Encode_toList, List.utf8Encode, List.toList_data_toByteArray]
  rw [fault?, hbytes, run_utf8Encode]
  simp

theorem isValue_iff {s : String} : IsValue s.toList ↔ s ≠ "" ∧ fault? s = none := by
  rw [fault?_eq, Encoded.fault?_eq_none_iff, IsValue, Ne, String.toList_eq_nil_iff]

end ByteScan

end UriTemplate
