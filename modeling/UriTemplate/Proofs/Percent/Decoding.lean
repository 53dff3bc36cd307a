import UriTemplate.Proofs.Percent.RoundTrip

/-!
# What decoding does to a text

`Percent.decode_local`: decoding goes on afresh on both sides of any character that is no part of a
triple, and it shortens a text by what its triples take up.

* **Locality.** Such a character is a piece of its own between the pieces on its two sides
  (`Piece.ofChars_append_char`), and its bytes are read as itself after any bytes
  (`Utf8.read_append_char`).
* **Length.** A piece gives one character at most (`Piece.length_finish_bytes`), and a text has as
  many pieces as characters less two for each triple (`Piece.length_ofChars`).
-/

namespace UriTemplate
namespace Piece

/-! ## Pieces around a character -/

theorem startsTriple_append_char {c : Char} (hc : isHexDigit c = false) (d : Char) (b : List Char) :
    ∀ a, startsTriple (d :: (a ++ c :: b)) = startsTriple (d :: a)
  | [] => by cases b <;> simp [startsTriple, hc]
  | [_] => by simp [startsTriple, hc]
  | _ :: _ :: _ => rfl

theorem ofChars_append_char {c : Char} (hmark : c ≠ percentMark) (hdigit : isHexDigit c = false)
    (a b : List Char) : ofChars (a ++ c :: b) = ofChars a ++ char c :: ofChars b := by
  induction a using textRec with
  | nil => exact ofChars_cons (startsTriple_of_ne hmark b)
  | triple hi lo a hhi hlo ih =>
    have hread := ofChars_triple hhi hlo (a ++ c :: b)
    rw [ih] at hread
    rw [ofChars_triple hhi hlo]
    exact hread
  | char d a hd ih =>
    have hread : ofChars (d :: (a ++ c :: b)) = char d :: ofChars (a ++ c :: b) :=
      ofChars_cons (by rwa [startsTriple_append_char hdigit])
    rw [ih] at hread
    rw [ofChars_cons hd]
    exact hread

/-! ## Triples of a text -/

/-- How many characters of a text begin a well-formed triple. -/
def tripleCount : List Char → Nat
  | [] => 0
  | c :: cs => (if startsTriple (c :: cs) then 1 else 0) + tripleCount cs

/-- Somewhere in the text a mark stands before two hexadecimal digits. -/
def HasTriple (cs : List Char) : Prop :=
  ∃ a hi lo b, cs = a ++ percentMark :: hi :: lo :: b ∧ isHexDigit hi ∧ isHexDigit lo

theorem hasTriple_cons {c : Char} {cs : List Char} :
    HasTriple (c :: cs) ↔ startsTriple (c :: cs) ∨ HasTriple cs := by
  rw [startsTriple_iff]
  constructor
  · rintro ⟨a, hi, lo, b, heq, hhi, hlo⟩
    cases a with
    | nil => exact .inl ⟨hi, lo, b, heq, hhi, hlo⟩
    | cons _ a => exact .inr ⟨a, hi, lo, b, (List.cons.inj heq).2, hhi, hlo⟩
  · rintro (⟨hi, lo, b, heq, hhi, hlo⟩ | ⟨a, hi, lo, b, heq, hhi, hlo⟩)
    · exact ⟨[], hi, lo, b, heq, hhi, hlo⟩
    · exact ⟨c :: a, hi, lo, b, by rw [heq, List.cons_append], hhi, hlo⟩

theorem hasTriple_iff {cs : List Char} : HasTriple cs ↔ 0 < tripleCount cs := by
  induction cs with
  | nil => simp [HasTriple, tripleCount]
  | cons c cs ih =>
    rw [hasTriple_cons, ih, tripleCount]
    by_cases hs : startsTriple (c :: cs)
    · rw [if_pos hs]
      exact ⟨fun _ => Nat.add_pos_left Nat.one_pos _, fun _ => .inl hs⟩
    · rw [if_neg hs, Nat.zero_add]
      exact or_iff_right hs

theorem tripleCount_triple {hi lo : Char} (hhi : isHexDigit hi) (hlo : isHexDigit lo)
    (cs : List Char) : tripleCount (percentMark :: hi :: lo :: cs) = tripleCount cs + 1 := by
  obtain ⟨hstart, hfirst, hsecond⟩ := startsTriple_triple hhi hlo cs
  simp [tripleCount, hstart, hfirst, hsecond, Nat.add_comm]

theorem tripleCount_char {c : Char} {cs : List Char} (h : startsTriple (c :: cs) = false) :
    tripleCount (c :: cs) = tripleCount cs := by
  simp [tripleCount, h]

/-- A triple is one piece of three characters, so each takes two pieces off the text. -/
theorem length_ofChars (cs : List Char) :
    (ofChars cs).length + 2 * tripleCount cs = cs.length := by
  induction cs using textRec with
  | nil => rfl
  | triple hi lo cs hhi hlo ih =>
    rw [ofChars_triple hhi hlo, tripleCount_triple hhi hlo]
    simp only [List.length_cons]
    omega
  | char c cs hc ih =>
    rw [ofChars_cons hc, tripleCount_char hc, List.length_cons, List.length_cons]
    omega

theorem ofChars_eq_map {cs : List Char} (h : tripleCount cs = 0) : ofChars cs = cs.map char := by
  induction cs using textRec with
  | nil => rfl
  | triple hi lo cs hhi hlo ih =>
    rw [tripleCount_triple hhi hlo] at h
    exact absurd h (Nat.succ_ne_zero _)
  | char c cs hc ih =>
    rw [tripleCount_char hc] at h
    rw [ofChars_cons hc, ih h, List.map_cons]

/-! ## Characters read from pieces -/

theorem length_finish_bytes {r : Utf8.Reader} (h : r.IsSound) (p : Piece) :
    (p.bytes.foldl Utf8.Reader.push r).finish.length ≤ r.finish.length + 1 := by
  cases p with
  | triple hi lo => exact Utf8.length_finish_push r _
  | char c =>
    rw [bytes, h.push_utf8EncodeChar]
    simp [Utf8.Reader.finish]

theorem length_finish_flatMap_bytes {r : Utf8.Reader} (h : r.IsSound) (ps : List Piece) :
    ((ps.flatMap bytes).foldl Utf8.Reader.push r).finish.length ≤ r.finish.length + ps.length := by
  induction ps generalizing r with
  | nil => exact Nat.le_refl _
  | cons p ps ih =>
    rw [List.flatMap_cons, List.foldl_append, List.length_cons]
    have hone := length_finish_bytes h p
    have hrest := ih (h.foldl p.bytes)
    omega

end Piece

namespace Percent

open Piece (HasTriple hasTriple_iff tripleCount)

theorem decodeChars_append_char {c : Char} (hmark : c ≠ percentMark)
    (hdigit : isHexDigit c = false) (a b : List Char) :
    decodeChars (a ++ c :: b) = decodeChars a ++ c :: decodeChars b := by
  rw [decodeChars, Piece.ofChars_append_char hmark hdigit, List.flatMap_append, List.flatMap_cons,
    ← List.append_assoc]
  exact Utf8.read_append_char _ _ c

theorem length_decodeChars (cs : List Char) :
    (decodeChars cs).length + 2 * tripleCount cs ≤ cs.length := by
  have hread := Piece.length_finish_flatMap_bytes (Utf8.isSound_start []) (Piece.ofChars cs)
  have hpieces := Piece.length_ofChars cs
  have hempty : (Utf8.Reader.finish ⟨[], none⟩).length = 0 := rfl
  rw [decodeChars, Utf8.read]
  omega

theorem decodeChars_eq_self_iff {cs : List Char} : decodeChars cs = cs ↔ ¬ HasTriple cs := by
  rw [hasTriple_iff]
  constructor
  · intro h
    have hlen := length_decodeChars cs
    rw [h] at hlen
    omega
  · intro h
    rw [decodeChars, Piece.ofChars_eq_map (by omega), List.flatMap_map]
    exact Utf8.read_utf8Encode cs

/-- A character that is neither the mark nor a digit cuts decoding in two, whatever unfinished triple
or sequence of bytes stands before it. A text without triples stands for itself, and any other for a
shorter one, by two characters at least for each of its triples; only the empty text stands for
nothing. -/
theorem decode_local :
    (∀ (a b : String) (c : Char), c ≠ percentMark → isHexDigit c = false →
      decode (a ++ String.singleton c ++ b) = decode a ++ String.singleton c ++ decode b) ∧
    ∀ s : String, (decode s = s ↔ ¬ HasTriple s.toList) ∧
      (decode s).length + 2 * tripleCount s.toList ≤ s.length ∧
      (decode s = "" → s = "") := by
  refine ⟨fun a b c hmark hdigit => ?_, fun s => ⟨?_, ?_, fun h => ?_⟩⟩
  · rw [← String.toList_inj]
    simpa using decodeChars_append_char hmark hdigit a.toList b.toList
  · rw [← String.toList_inj, toList_decode]
    exact decodeChars_eq_self_iff
  · rw [← String.length_toList, ← String.length_toList, toList_decode]
    exact length_decodeChars s.toList
  · rw [← String.toList_eq_nil_iff, toList_decode, decodeChars_eq_nil] at h
    exact String.toList_eq_nil_iff.1 h

/-- The bytes on the two sides of a character would spell one of their own without it. -/
theorem decode_local_unfinished :
    'é' ≠ percentMark ∧ isHexDigit 'é' = false ∧
      decode "%E3%81" ++ String.singleton 'é' ++ decode "%82" = "\uFFFDé\uFFFD" ∧
      decode ("%E3%81" ++ String.singleton 'é' ++ "%82") = "\uFFFDé\uFFFD" := by
  have hmark : 'é' ≠ percentMark := by decide
  have hdigit : isHexDigit 'é' = false := by decide
  have hsides : decode "%E3%81" ++ String.singleton 'é' ++ decode "%82" = "\uFFFDé\uFFFD" := by
    decide
  exact ⟨hmark, hdigit, hsides, (decode_local.1 "%E3%81" "%82" 'é' hmark hdigit).trans hsides⟩

example : decode "%E3%81%82%4é" = "あ%4é" := by decide

end Percent

end UriTemplate
