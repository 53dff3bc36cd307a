import UriTemplate.Encoded
import UriTemplate.Percent.Codec

/-!
# Canonical pieces and encoded text

What reading a text into pieces gives back, and what follows for encoded text:

* `ofChars_toChars`: canonical pieces are what reading their own text gives, and reading gives
  canonical pieces only (`isCanonical_ofChars`). Writing digits in upper case keeps them canonical
  (`IsCanonical.map_upper`).
* `IsEncoded` by cases on the front of a text (`isEncoded_triple`, `isEncoded_cons`), so it is
  closed under `++` (`isEncoded_append`) and under suffixes (`IsEncoded.suffix`). A suffix may begin
  inside a triple, because the digits of a triple are unreserved.
-/

namespace UriTemplate

theorem percentMark_not_unreserved : isUnreserved percentMark = false := by decide

theorem isUnreserved_ne_percentMark {c : Char} (h : isUnreserved c) : c ≠ percentMark := by
  intro heq
  exact absurd (heq ▸ h) (by decide)

theorem isAlphanum_eq (c : Char) : c.isAlphanum =
    ('A' ≤ c && c ≤ 'Z' || 'a' ≤ c && c ≤ 'z' || '0' ≤ c && c ≤ '9') := by
  have hupper : c.isUpper = ('A' ≤ c && c ≤ 'Z') := Bool.decide_and ..
  show (c.isUpper || c.isLower || c.isDigit) = _
  rw [hupper]
  rfl

theorem isUnreserved_toNat_lt {c : Char} (h : isUnreserved c) : c.toNat < 128 := by
  have hc : c.toNat = c.val.toNat := rfl
  simp only [isUnreserved_eq, isAlphanum_eq, Bool.or_eq_true, Bool.and_eq_true, decide_eq_true_eq,
    beq_iff_eq, Char.le_def, UInt32.le_iff_toNat_le, Char.reduceVal, UInt32.reduceToNat] at h
  rcases h with (((h | rfl) | rfl) | rfl) | rfl
  · omega
  all_goals decide

theorem isNameChar_isUnreserved {c : Char} (h : isNameChar c) : isUnreserved c := by
  simp only [isNameChar, Bool.or_eq_true] at h
  rcases h with ((h | h) | h) | h <;> simp [isUnreserved_eq, h]

namespace Piece

/-! ## Cases on the front of a text -/

theorem startsTriple_iff {cs : List Char} : startsTriple cs ↔
    ∃ hi lo rest, cs = percentMark :: hi :: lo :: rest ∧ isHexDigit hi ∧ isHexDigit lo := by
  refine ⟨fun h => ?_, fun ⟨hi, lo, rest, hcs, hhi, hlo⟩ => ?_⟩
  · match cs, h with
    | c :: hi :: lo :: rest, h =>
      simp only [startsTriple, Bool.and_eq_true, beq_iff_eq] at h
      obtain ⟨⟨rfl, hhi⟩, hlo⟩ := h
      exact ⟨hi, lo, rest, rfl, hhi, hlo⟩
  · rw [hcs]
    simp [startsTriple, hhi, hlo]

theorem startsTriple_of_ne {c : Char} (h : c ≠ percentMark) (cs : List Char) :
    startsTriple (c :: cs) = false := by
  rw [Bool.eq_false_iff, ne_eq, startsTriple_iff]
  intro ⟨hi, lo, rest, heq, _, _⟩
  exact h (List.cons.inj heq).1

/-- Triples do not overlap: none begins at a digit of another. -/
theorem startsTriple_triple {hi lo : Char} (hhi : isHexDigit hi) (hlo : isHexDigit lo)
    (cs : List Char) : startsTriple (percentMark :: hi :: lo :: cs) = true ∧
      startsTriple (hi :: lo :: cs) = false ∧ startsTriple (lo :: cs) = false :=
  ⟨startsTriple_iff.2 ⟨hi, lo, cs, rfl, hhi, hlo⟩,
    startsTriple_of_ne (isHexDigit_ne_percentMark hhi) _,
    startsTriple_of_ne (isHexDigit_ne_percentMark hlo) _⟩

/-- Induction over a text: a triple at the front is one step, any other character another. -/
theorem textRec {motive : List Char → Prop} (nil : motive [])
    (triple : ∀ hi lo cs, isHexDigit hi → isHexDigit lo → motive cs →
      motive (percentMark :: hi :: lo :: cs))
    (char : ∀ c cs, startsTriple (c :: cs) = false → motive cs → motive (c :: cs)) :
    ∀ cs, motive cs
  | [] => nil
  | c :: cs => by
    cases h : startsTriple (c :: cs) with
    | false => exact char c cs h (textRec nil triple char cs)
    | true =>
      match cs, h with
      | hi :: lo :: rest, h =>
        simp only [startsTriple, Bool.and_eq_true, beq_iff_eq] at h
        obtain ⟨⟨rfl, hhi⟩, hlo⟩ := h
        exact triple hi lo rest hhi hlo (textRec nil triple char rest)

/-! ## Canonical pieces -/

/-- The digits of triples are hexadecimal, and no mark stands alone before two such digits. -/
def IsCanonical : List Piece → Prop
  | [] => True
  | triple hi lo :: ps => isHexDigit hi ∧ isHexDigit lo ∧ IsCanonical ps
  | char c :: ps => startsTriple (c :: toChars ps) = false ∧ IsCanonical ps

theorem ofChars_toChars : ∀ {ps : List Piece}, IsCanonical ps → ofChars (toChars ps) = ps
  | [], _ => rfl
  | triple hi lo :: ps, h => by
    obtain ⟨hhi, hlo, hps⟩ := h
    rw [toChars_cons]
    show ofChars (percentMark :: hi :: lo :: toChars ps) = _
    rw [ofChars_triple hhi hlo, ofChars_toChars hps]
  | char c :: ps, h => by
    obtain ⟨hc, hps⟩ := h
    rw [toChars_cons]
    show ofChars (c :: toChars ps) = _
    rw [ofChars_cons hc, ofChars_toChars hps]

theorem isCanonical_ofChars (cs : List Char) : IsCanonical (ofChars cs) := by
  induction cs using textRec with
  | nil => trivial
  | triple hi lo cs hhi hlo ih =>
    rw [ofChars_triple hhi hlo]
    exact ⟨hhi, hlo, ih⟩
  | char c cs hc ih =>
    rw [ofChars_cons hc]
    exact ⟨by rwa [toChars_ofChars], ih⟩

/-- Pieces of which no character is a mark are canonical as soon as their triples are. -/
theorem isCanonical_of_forall {ps : List Piece}
    (h : ∀ p ∈ ps, match p with
      | triple hi lo => isHexDigit hi ∧ isHexDigit lo
      | char c => c ≠ percentMark) : IsCanonical ps := by
  induction ps with
  | nil => trivial
  | cons p ps ih =>
    have hp := h p (List.mem_cons_self)
    have hps := ih fun q hq => h q (List.mem_cons_of_mem _ hq)
    cases p with
    | triple hi lo => exact ⟨hp.1, hp.2, hps⟩
    | char c => exact ⟨startsTriple_of_ne hp _, hps⟩

/-! ## Upper case -/

theorem forall_isHexDigit {P : Char → Prop}
    (ascii : ∀ n < 128, isHexDigit (Char.ofNat n) → P (Char.ofNat n)) :
    ∀ c, isHexDigit c → P c := by
  intro c h
  have hc := ascii c.toNat (isHexDigit_toNat_lt h)
  rw [Char.ofNat_toNat] at hc
  exact hc h

theorem isHexDigit_toUpper : ∀ c, isHexDigit c → isHexDigit c.toUpper :=
  forall_isHexDigit (by decide)

theorem hexValue_toUpper : ∀ c, isHexDigit c → hexValue c.toUpper = hexValue c :=
  forall_isHexDigit (by decide)

/-- Whether two digits stand at the front of the text of pieces does not depend on the case of
triples: a triple begins with its mark. -/
theorem startsTriple_map_upper (c : Char) : ∀ ps : List Piece,
    startsTriple (c :: toChars (ps.map upper)) = startsTriple (c :: toChars ps)
  | [] => rfl
  | triple _ _ :: _ => by simp [upper, text, startsTriple, show isHexDigit percentMark = false by decide]
  | [char _] => rfl
  | char _ :: triple _ _ :: _ => by
    simp [upper, text, startsTriple, show isHexDigit percentMark = false by decide]
  | char _ :: char _ :: _ => rfl

theorem IsCanonical.map_upper : ∀ {ps : List Piece}, IsCanonical ps → IsCanonical (ps.map upper)
  | [], _ => trivial
  | triple _ _ :: _, h => ⟨isHexDigit_toUpper _ h.1, isHexDigit_toUpper _ h.2.1, h.2.2.map_upper⟩
  | char c :: ps, h => ⟨by rw [startsTriple_map_upper]; exact h.1, h.2.map_upper⟩

theorem isEncoded_upper (p : Piece) : p.upper.isEncoded = p.isEncoded := by
  cases p <;> rfl

end Piece

/-! ## Units of encoded text -/

/-- An unreserved character or a triple. -/
inductive IsUnit : List Char → Prop
  | char {c : Char} : isUnreserved c → IsUnit [c]
  | triple {hi lo : Char} : isHexDigit hi → isHexDigit lo → IsUnit [percentMark, hi, lo]

theorem IsUnit.length_pos {u : List Char} (h : IsUnit u) : 0 < u.length := by
  cases h <;> simp

theorem IsUnit.unique {u u' a b : List Char} (h : IsUnit u) (h' : IsUnit u')
    (heq : u ++ a = u' ++ b) : u = u' ∧ a = b := by
  cases h with
  | char hc =>
    cases h' with
    | char _ => simpa using heq
    | triple _ _ => exact absurd (List.cons.inj heq).1 (isUnreserved_ne_percentMark hc)
  | triple _ _ =>
    cases h' with
    | char hc => exact absurd (List.cons.inj heq).1.symm (isUnreserved_ne_percentMark hc)
    | triple _ _ => simpa [and_assoc] using heq

/-- Induction over a text by the units it begins with. -/
theorem unitRec {motive : List Char → Prop} (nil : motive [])
    (unit : ∀ u cs, IsUnit u → motive cs → motive (u ++ cs))
    (other : ∀ c cs, isUnreserved c = false → Piece.startsTriple (c :: cs) = false →
      motive (c :: cs)) (cs : List Char) : motive cs := by
  induction cs using Piece.textRec with
  | nil => exact nil
  | triple hi lo cs hhi hlo ih => exact unit _ cs (.triple hhi hlo) ih
  | char c cs hs ih =>
    cases hc : isUnreserved c with
    | true => exact unit _ cs (.char hc) ih
    | false => exact other c cs hc hs

/-! ## Encoded text -/

theorem isEncoded_nil : IsEncoded [] := by simp [IsEncoded]

theorem isEncoded_cons {c : Char} {cs : List Char} (h : Piece.startsTriple (c :: cs) = false) :
    IsEncoded (c :: cs) ↔ isUnreserved c ∧ IsEncoded cs := by
  simp [IsEncoded, Piece.ofChars_cons h, Piece.isEncoded]

theorem IsUnit.isEncoded_append {u : List Char} (h : IsUnit u) {cs : List Char} :
    IsEncoded (u ++ cs) ↔ IsEncoded cs := by
  cases h with
  | char hc =>
    have hs := Piece.startsTriple_of_ne (isUnreserved_ne_percentMark hc) cs
    simpa [hc] using isEncoded_cons hs
  | triple hhi hlo => simp [IsEncoded, Piece.ofChars_triple hhi hlo, Piece.isEncoded]

theorem IsEncoded.front {cs : List Char} (h : IsEncoded cs) :
    cs = [] ∨ ∃ u rest, IsUnit u ∧ cs = u ++ rest ∧ IsEncoded rest := by
  induction cs using unitRec with
  | nil => exact .inl rfl
  | unit u cs hu _ => exact .inr ⟨u, cs, hu, rfl, hu.isEncoded_append.1 h⟩
  | other c cs hc hs => exact absurd ((isEncoded_cons hs).1 h).1 (by simp [hc])

/-- Encoded text before a text does not decide whether the whole is encoded. -/
theorem isEncoded_append {a b : List Char} (ha : IsEncoded a) :
    IsEncoded (a ++ b) ↔ IsEncoded b := by
  induction a using unitRec with
  | nil => rfl
  | unit u cs hu ih =>
    rw [List.append_assoc, hu.isEncoded_append]
    exact ih (hu.isEncoded_append.1 ha)
  | other c cs hc hs => exact absurd ((isEncoded_cons hs).1 ha).1 (by simp [hc])

/-- The first character of encoded text may be left out, even if it is the mark of a triple: the
digits of a triple are unreserved. -/
theorem IsEncoded.tail {c : Char} {cs : List Char} (h : IsEncoded (c :: cs)) : IsEncoded cs := by
  rcases h.front with heq | ⟨u, rest, hu, heq, hrest⟩
  · cases heq
  cases hu with
  | char hc =>
    obtain ⟨rfl, rfl⟩ := List.cons.inj heq
    exact hrest
  | @triple hi lo hhi hlo =>
    obtain ⟨rfl, rfl⟩ := List.cons.inj heq
    exact (isEncoded_append (a := [hi, lo]) ((IsUnit.char (isHexDigit_isUnreserved hhi)).isEncoded_append.2
      ((IsUnit.char (isHexDigit_isUnreserved hlo)).isEncoded_append.2 isEncoded_nil))).2 hrest

theorem IsEncoded.suffix : ∀ {a b : List Char}, IsEncoded (a ++ b) → IsEncoded b
  | [], _, h => h
  | _ :: _, _, h => IsEncoded.suffix (IsEncoded.tail h)

theorem IsEncoded.mem {cs : List Char} (h : IsEncoded cs) :
    ∀ c ∈ cs, isUnreserved c ∨ c = percentMark := by
  induction cs using unitRec with
  | nil => simp
  | unit u cs hu ih =>
    intro d hd
    rcases List.mem_append.1 hd with hd | hd
    · cases hu with
      | char hc =>
        rw [List.mem_singleton] at hd
        exact .inl (hd ▸ hc)
      | triple hhi hlo =>
        simp only [List.mem_cons, List.not_mem_nil, or_false] at hd
        rcases hd with rfl | rfl | rfl
        · exact .inr rfl
        · exact .inl (isHexDigit_isUnreserved hhi)
        · exact .inl (isHexDigit_isUnreserved hlo)
    · exact ih (hu.isEncoded_append.1 h) d hd
  | other c cs hc hs => exact absurd ((isEncoded_cons hs).1 h).1 (by simp [hc])

/-! ## Values -/

theorem IsUnit.isValue_append {u : List Char} (h : IsUnit u) {v : List Char} :
    IsValue (u ++ v) ↔ v = [] ∨ IsValue v := by
  have hne : u ++ v ≠ [] := fun heq => by simpa [(List.append_eq_nil_iff.1 heq).1] using h.length_pos
  simp only [IsValue, hne, h.isEncoded_append, ne_eq, not_false_eq_true, true_and]
  by_cases hv : v = []
  · simp [hv, isEncoded_nil]
  · simp [hv]

theorem IsValue.front {v : List Char} (h : IsValue v) :
    ∃ u rest, IsUnit u ∧ v = u ++ rest ∧ (rest = [] ∨ IsValue rest) := by
  rcases h.2.front with rfl | ⟨u, rest, hu, rfl, -⟩
  · exact absurd rfl h.1
  · exact ⟨u, rest, hu, rfl, hu.isValue_append.1 h⟩

theorem not_isValue_other {c : Char} {cs v s : List Char} (hc : isUnreserved c = false)
    (hs : Piece.startsTriple (c :: cs) = false) (heq : c :: cs = v ++ s) : ¬ IsValue v := by
  intro hv
  obtain ⟨u, rest, hu, rfl, -⟩ := hv.front
  cases hu with
  | char hc' =>
    obtain ⟨rfl, -⟩ := List.cons.inj heq
    exact absurd hc' (by simp [hc])
  | triple hhi hlo =>
    rw [heq] at hs
    simp [Piece.startsTriple, hhi, hlo] at hs

end UriTemplate
