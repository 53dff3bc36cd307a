import UriTemplate.Proofs.Percent.ByteScan
import UriTemplate.Proofs.Percent.RoundTrip

/-!
# Upper case

The digits of triples in upper case (`IsUpper`), and what writing them so does to a text:

* `getElem?_normalizeChars`: every character stays in its place, and of these only the digits of
  triples change (`isTripleDigit`).
* `normalizeChars_eq_self_iff`: the texts that stay as they are are those in upper case.
* `fault?_normalizeChars`: a text outside the grammar of values has its first fault at the same byte.
-/

namespace UriTemplate

/-! ## Texts in upper case -/

namespace Piece

/-- The digits of a triple are in upper case. -/
def isUpper : Piece → Bool
  | triple hi lo => !hi.isLower && !lo.isLower
  | char _ => true

theorem isUpper_ofByte (b : UInt8) : (ofByte b).isUpper := by
  have hdigit : ∀ n < 16, (hexDigit n).isLower = false := by decide
  have hb : b.toNat < 256 := b.toNat_lt
  simp [ofByte, isUpper, hdigit (b.toNat / 16) (by omega), hdigit (b.toNat % 16) (by omega)]

theorem isUpper_upper : ∀ {ps : List Piece}, IsCanonical ps → ∀ p ∈ ps, p.upper.isUpper
  | [], _, p, hp => absurd hp List.not_mem_nil
  | triple hi lo :: ps, h, p, hp => by
    have hdigit : ∀ c, isHexDigit c → c.toUpper.isLower = false := forall_isHexDigit (by decide)
    rcases List.mem_cons.1 hp with rfl | hp
    · simp [upper, isUpper, hdigit hi h.1, hdigit lo h.2.1]
    · exact isUpper_upper h.2.2 p hp
  | char c :: ps, h, p, hp => by
    rcases List.mem_cons.1 hp with rfl | hp
    · rfl
    · exact isUpper_upper h.2 p hp

end Piece

/-- All triples of a text are in upper case. -/
def IsUpper (cs : List Char) : Prop := ∀ p ∈ Piece.ofChars cs, p.isUpper

theorem isUpper_encodeChars (cs : List Char) : IsUpper (Percent.encodeChars cs) := by
  intro p hp
  rw [Percent.ofChars_encodeChars] at hp
  obtain ⟨c, -, hp⟩ := List.mem_flatMap.1 hp
  rcases Piece.mem_encodeChar hp with ⟨b, rfl⟩ | ⟨d, -, rfl⟩
  · exact Piece.isUpper_ofByte b
  · rfl

theorem isUpper_normalizeChars (cs : List Char) : IsUpper (Percent.normalizeChars cs) := by
  intro p hp
  rw [Percent.ofChars_normalizeChars] at hp
  obtain ⟨q, hq, rfl⟩ := List.mem_map.1 hp
  exact Piece.isUpper_upper (Piece.isCanonical_ofChars cs) q hq

theorem toUpper_of_not_isLower {c : Char} (h : c.isLower = false) : c.toUpper = c := by
  apply dif_neg
  rintro ⟨hlow, hhigh⟩
  have hlower : c.isLower = true :=
    Bool.and_eq_true_iff.2 ⟨decide_eq_true hlow, decide_eq_true hhigh⟩
  rw [h] at hlower
  cases hlower

theorem Piece.upper_of_isUpper {p : Piece} (h : p.isUpper) : p.upper = p := by
  cases p with
  | triple hi lo =>
    simp only [isUpper, Bool.and_eq_true, Bool.not_eq_true'] at h
    rw [upper, toUpper_of_not_isLower h.1, toUpper_of_not_isLower h.2]
  | char c => rfl

namespace Percent

theorem normalizeChars_eq_self_iff {cs : List Char} : normalizeChars cs = cs ↔ IsUpper cs := by
  refine ⟨fun h => h ▸ isUpper_normalizeChars cs, fun h => ?_⟩
  have hpieces : (Piece.ofChars cs).map Piece.upper = (Piece.ofChars cs).map id :=
    List.map_congr_left fun p hp => Piece.upper_of_isUpper (h p hp)
  rw [List.map_id] at hpieces
  rw [normalizeChars, hpieces, Piece.toChars_ofChars]

theorem normalizeChars_normalizeChars (cs : List Char) :
    normalizeChars (normalizeChars cs) = normalizeChars cs :=
  normalizeChars_eq_self_iff.2 (isUpper_normalizeChars cs)

theorem normalizeChars_eq_nil {cs : List Char} : normalizeChars cs = [] ↔ cs = [] := by
  rw [← decodeChars_eq_nil, decodeChars_normalizeChars, decodeChars_eq_nil]

/-! ## Character by character -/

theorem normalizeChars_triple {hi lo : Char} (hhi : isHexDigit hi) (hlo : isHexDigit lo)
    (cs : List Char) : normalizeChars (percentMark :: hi :: lo :: cs) =
      percentMark :: hi.toUpper :: lo.toUpper :: normalizeChars cs := by
  rw [normalizeChars, Piece.ofChars_triple hhi hlo]
  rfl

theorem normalizeChars_cons {c : Char} {cs : List Char}
    (h : Piece.startsTriple (c :: cs) = false) :
    normalizeChars (c :: cs) = c :: normalizeChars cs := by
  rw [normalizeChars, Piece.ofChars_cons h]
  rfl

/-- Whether a character is one of the two digits behind the mark of a triple. -/
def isTripleDigit (cs : List Char) (i : Nat) : Bool :=
  (1 ≤ i && Piece.startsTriple (cs.drop (i - 1))) ||
    (2 ≤ i && Piece.startsTriple (cs.drop (i - 2)))

theorem isTripleDigit_succ (c : Char) (cs : List Char) : ∀ i,
    isTripleDigit (c :: cs) (i + 1) =
      ((i < 2 && Piece.startsTriple (c :: cs)) || isTripleDigit cs i)
  | 0 => by simp [isTripleDigit]
  | 1 => by simp [isTripleDigit, Bool.or_comm]
  | i + 2 => by
    have hi : ¬ i + 2 < 2 := by omega
    simp [isTripleDigit, hi]

theorem getElem?_normalizeChars (cs : List Char) (i : Nat) : (normalizeChars cs)[i]? =
    cs[i]?.map fun c => if isTripleDigit cs i then c.toUpper else c := by
  induction cs using Piece.textRec generalizing i with
  | nil => rfl
  | triple hi lo cs hhi hlo ih =>
    obtain ⟨hstart, hfirst, hsecond⟩ := Piece.startsTriple_triple hhi hlo cs
    rw [normalizeChars_triple hhi hlo]
    rcases i with _ | _ | _ | i
    · rfl
    · simp [isTripleDigit_succ, hstart]
    · simp [isTripleDigit_succ, hstart]
    · have hi : ¬ i + 2 < 2 := by omega
      simp [isTripleDigit_succ, hfirst, hsecond, hi, ih]
  | char c cs hc ih =>
    rw [normalizeChars_cons hc]
    cases i with
    | zero => rfl
    | succ i => simp [isTripleDigit_succ, hc, ih]

/-! ## Faults -/

theorem normalizeChars_unit {u : List Char} (h : IsUnit u) (cs : List Char) :
    IsUnit (normalizeChars u) ∧ (normalizeChars u).length = u.length ∧
      normalizeChars (u ++ cs) = normalizeChars u ++ normalizeChars cs := by
  cases h with
  | @char c hc =>
    have hs := Piece.startsTriple_of_ne (isUnreserved_ne_percentMark hc)
    have hu : normalizeChars [c] = [c] := normalizeChars_cons (hs [])
    rw [hu]
    exact ⟨.char hc, rfl, normalizeChars_cons (hs cs)⟩
  | @triple hi lo hhi hlo =>
    have hu : normalizeChars [percentMark, hi, lo] = [percentMark, hi.toUpper, lo.toUpper] :=
      normalizeChars_triple hhi hlo []
    rw [hu]
    exact ⟨.triple (Piece.isHexDigit_toUpper _ hhi) (Piece.isHexDigit_toUpper _ hlo), rfl,
      normalizeChars_triple hhi hlo cs⟩

theorem startsTriple_normalizeChars (c : Char) (cs : List Char) :
    Piece.startsTriple (c :: normalizeChars cs) = Piece.startsTriple (c :: cs) := by
  rw [normalizeChars, Piece.startsTriple_map_upper, Piece.toChars_ofChars]

theorem fault?_normalizeChars (cs : List Char) :
    Encoded.fault? (normalizeChars cs) = Encoded.fault? cs := by
  induction cs using unitRec with
  | nil => rfl
  | unit u cs hu ih =>
    obtain ⟨hu', hlen, hnormal⟩ := normalizeChars_unit hu cs
    rw [hnormal, fault?_unit hu', fault?_unit hu, ih, hlen]
  | other c cs hc hs =>
    rw [normalizeChars_cons hs, fault?_other hc hs, fault?_other hc]
    rwa [startsTriple_normalizeChars]

end Percent

end UriTemplate
