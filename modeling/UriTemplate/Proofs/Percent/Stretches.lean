import UriTemplate.Proofs.Grammar.Variables
import UriTemplate.Proofs.Percent.UpperCase

/-!
# Upper case, stretch by stretch

A text is cut at its marks, and each stretch behind a mark is taken by itself: two digits at its front
are written in upper case. If none of them is in lower case the text is left as it is and no stretch
is written. `Stretch.normalize_eq` says that this is the normal form of the text, although bytes are
counted here and pieces there.

`Percent.normalize_pointwise` puts together what the normal form of a text is and what the two have
in common.
-/

namespace UriTemplate
namespace Stretch

/-! ## Digits at the front -/

/-- The beginning of a text that has `n` bytes, unless they end inside a character. -/
def bytePrefix? : Nat → List Char → Option (List Char)
  | 0, _ => some []
  | _ + 1, [] => none
  | n + 1, c :: cs =>
    if c.utf8Size ≤ n + 1 then (bytePrefix? (n + 1 - c.utf8Size) cs).map (c :: ·) else none

theorem byteLength_eq_zero {cs : List Char} : byteLength cs = 0 ↔ cs = [] := by
  cases cs with
  | nil => simp
  | cons c cs =>
    have hc := c.utf8Size_pos
    simp only [byteLength_cons, List.cons_ne_nil, iff_false]
    omega

theorem bytePrefix?_zero {cs ds : List Char} :
    bytePrefix? 0 cs = some ds ↔ ∃ rest, cs = ds ++ rest ∧ byteLength ds = 0 := by
  rw [bytePrefix?, Option.some.injEq]
  constructor
  · rintro rfl
    exact ⟨cs, rfl, rfl⟩
  · rintro ⟨_, -, hbytes⟩
    exact (byteLength_eq_zero.1 hbytes).symm

theorem bytePrefix?_eq_some {n : Nat} {cs ds : List Char} :
    bytePrefix? n cs = some ds ↔ ∃ rest, cs = ds ++ rest ∧ byteLength ds = n := by
  induction cs generalizing n ds with
  | nil =>
    cases n with
    | zero => exact bytePrefix?_zero
    | succ n =>
      refine ⟨nofun, fun ⟨rest, hrest, hbytes⟩ => ?_⟩
      rw [(List.append_eq_nil_iff.1 hrest.symm).1] at hbytes
      cases hbytes
  | cons c cs ih =>
    have hpos := c.utf8Size_pos
    cases n with
    | zero => exact bytePrefix?_zero
    | succ n =>
      cases ds with
      | nil =>
        refine ⟨fun h => ?_, fun ⟨_, _, hbytes⟩ => absurd hbytes nofun⟩
        rw [bytePrefix?] at h
        split at h
        · obtain ⟨_, -, heq⟩ := Option.map_eq_some_iff.1 h
          cases heq
        · cases h
      | cons d ds =>
        rw [bytePrefix?, byteLength_cons]
        by_cases hsize : c.utf8Size ≤ n + 1
        · rw [if_pos hsize, Option.map_eq_some_iff]
          constructor
          · rintro ⟨ds, hds, heq⟩
            obtain ⟨rfl, rfl⟩ := List.cons.inj heq
            obtain ⟨rest, rfl, hbytes⟩ := ih.1 hds
            exact ⟨rest, rfl, by omega⟩
          · rintro ⟨rest, heq, hbytes⟩
            obtain ⟨rfl, rfl⟩ := List.cons.inj heq
            exact ⟨ds, ih.2 ⟨rest, rfl, by omega⟩, rfl⟩
        · rw [if_neg hsize]
          refine ⟨nofun, fun ⟨rest, heq, hbytes⟩ => ?_⟩
          obtain ⟨rfl, -⟩ := List.cons.inj heq
          omega

/-- The digits of the triple whose mark stands before a stretch. -/
def digits? (stretch : List Char) : Option (List Char) :=
  (bytePrefix? 2 stretch).filter (·.all isHexDigit)

theorem digits?_eq_some {stretch ds : List Char} : digits? stretch = some ds ↔
    ∃ hi lo rest, stretch = hi :: lo :: rest ∧ isHexDigit hi ∧ isHexDigit lo ∧ ds = [hi, lo] := by
  rw [digits?, Option.filter_eq_some_iff, bytePrefix?_eq_some, List.all_eq_true]
  constructor
  · rintro ⟨⟨rest, rfl, hbytes⟩, hdigits⟩
    rw [byteLength_eq_length fun c hc => isHexDigit_toNat_lt (hdigits c hc)] at hbytes
    match ds, hbytes with
    | [hi, lo], _ =>
      exact ⟨hi, lo, rest, rfl, hdigits hi (by simp), hdigits lo (by simp), rfl⟩
  · rintro ⟨hi, lo, rest, rfl, hhi, hlo, rfl⟩
    have hdigits : ∀ c ∈ [hi, lo], isHexDigit c := by simp [hhi, hlo]
    exact ⟨⟨rest, rfl, byteLength_eq_length fun c hc => isHexDigit_toNat_lt (hdigits c hc)⟩,
      hdigits⟩

/-! ## Stretches -/

/-- A stretch with the digits at its front in upper case. -/
def upper (stretch : List Char) : List Char :=
  match digits? stretch with
  | some digits => digits.map Char.toUpper ++ stretch.drop digits.length
  | none => stretch

/-- Stretches put together again, with `f` applied to each one behind a mark. -/
def join (f : List Char → List Char) : List (List Char) → List Char
  | [] => []
  | first :: stretches => first ++ stretches.flatMap fun stretch => percentMark :: f stretch

/-- Whether the digits of a triple are not all in upper case. -/
def hasLower (stretches : List (List Char)) : Bool :=
  ((stretches.drop 1).filterMap digits?).any (·.any Char.isLower)

/-- A text with the digits of its triples in upper case, put together again only if any of them is
not. -/
def normalize (s : String) : String :=
  let stretches := s.toList.splitOn percentMark
  if hasLower stretches then String.ofList (join upper stretches) else s

theorem splitOn_mark (cs : List Char) :
    (percentMark :: cs).splitOn percentMark = [] :: cs.splitOn percentMark := by
  rw [List.splitOn_cons_eq_if_modifyHead, if_pos (beq_self_eq_true _)]

theorem splitOn_cons {c : Char} (hc : c ≠ percentMark) (cs : List Char) :
    (c :: cs).splitOn percentMark = (cs.splitOn percentMark).modifyHead (c :: ·) := by
  rw [List.splitOn_cons_eq_if_modifyHead, if_neg (by simpa using hc)]

/-- A text begins with its first stretch. -/
theorem exists_splitOn (cs : List Char) : ∃ first stretches rest,
    cs.splitOn percentMark = first :: stretches ∧ cs = first ++ rest := by
  induction cs with
  | nil => exact ⟨[], [], [], List.splitOn_nil _, rfl⟩
  | cons c cs ih =>
    obtain ⟨first, stretches, rest, hsplit, rfl⟩ := ih
    by_cases hc : c = percentMark
    · subst hc
      exact ⟨[], _, _, splitOn_mark _, rfl⟩
    · rw [splitOn_cons hc, hsplit]
      exact ⟨c :: first, stretches, rest, rfl, rfl⟩

theorem join_intercalate (stretches : List (List Char)) :
    join id stretches = [percentMark].intercalate stretches := by
  cases stretches with
  | nil => rfl
  | cons first stretches =>
    induction stretches generalizing first with
    | nil => simp [join]
    | cons second stretches ih =>
      rw [List.intercalate_cons_cons, ← ih]
      simp [join]

theorem upper_digits {hi lo : Char} (hhi : isHexDigit hi) (hlo : isHexDigit lo) (cs : List Char) :
    upper (hi :: lo :: cs) = hi.toUpper :: lo.toUpper :: cs := by
  have hdigits : digits? (hi :: lo :: cs) = some [hi, lo] :=
    digits?_eq_some.2 ⟨hi, lo, cs, rfl, hhi, hlo, rfl⟩
  simp [upper, hdigits]

/-- Cutting at the marks finds the digits that the pieces of a text find. -/
theorem join_upper (cs : List Char) :
    join upper (cs.splitOn percentMark) = Percent.normalizeChars cs := by
  induction cs using Piece.textRec with
  | nil => rfl
  | triple hi lo cs hhi hlo ih =>
    obtain ⟨first, stretches, -, hsplit, -⟩ := exists_splitOn cs
    rw [Percent.normalizeChars_triple hhi hlo, ← ih, splitOn_mark,
      splitOn_cons (Piece.isHexDigit_ne_percentMark hhi),
      splitOn_cons (Piece.isHexDigit_ne_percentMark hlo), hsplit]
    simp [join, upper_digits hhi hlo]
  | char c cs hs ih =>
    obtain ⟨first, stretches, rest, hsplit, hcs⟩ := exists_splitOn cs
    rw [Percent.normalizeChars_cons hs, ← ih, hsplit]
    by_cases hc : c = percentMark
    · -- digits at the front of the stretch would be digits behind the mark
      subst hc
      have hnone : digits? first = none := by
        rw [Option.eq_none_iff_forall_ne_some]
        intro ds hds
        obtain ⟨hi, lo, _, rfl, hhi, hlo, -⟩ := digits?_eq_some.1 hds
        rw [hcs] at hs
        simp [Piece.startsTriple, hhi, hlo] at hs
      rw [splitOn_mark, hsplit]
      simp [join, upper, hnone]
    · rw [splitOn_cons hc, hsplit]
      rfl

theorem upper_of_not_hasLower {first stretch : List Char} {stretches : List (List Char)}
    (h : hasLower (first :: stretches) = false) (hmem : stretch ∈ stretches) :
    upper stretch = stretch := by
  cases hdigits : digits? stretch with
  | none => simp [upper, hdigits]
  | some ds =>
    obtain ⟨hi, lo, rest, rfl, hhi, hlo, rfl⟩ := digits?_eq_some.1 hdigits
    have hupper := List.any_eq_false.1 h _ (List.mem_filterMap.2 ⟨_, hmem, hdigits⟩)
    simp only [List.any_cons, List.any_nil, Bool.or_false, Bool.or_eq_true, not_or,
      Bool.not_eq_true] at hupper
    rw [upper_digits hhi hlo, toUpper_of_not_isLower hupper.1, toUpper_of_not_isLower hupper.2]

/-- Without a digit in lower case every stretch is written as it is. -/
theorem join_upper_of_not_hasLower {first : List Char} {stretches : List (List Char)}
    (h : hasLower (first :: stretches) = false) :
    join upper (first :: stretches) = join id (first :: stretches) := by
  have hmarked : stretches.map (fun stretch => percentMark :: upper stretch) =
      stretches.map (percentMark :: ·) :=
    List.map_congr_left fun stretch hmem =>
      congrArg (percentMark :: ·) (upper_of_not_hasLower h hmem)
  rw [join, join, List.flatMap_def, List.flatMap_def, hmarked]
  rfl

theorem normalize_eq (s : String) : normalize s = Percent.normalize s := by
  obtain ⟨first, stretches, -, hsplit, -⟩ := exists_splitOn s.toList
  have hjoin := join_upper s.toList
  rw [hsplit] at hjoin
  rw [normalize, hsplit, Percent.normalize, ← hjoin]
  cases hlower : hasLower (first :: stretches) with
  | true => rfl
  | false =>
    rw [join_upper_of_not_hasLower hlower, join_intercalate, ← hsplit, List.intercalate_splitOn, String.ofList_toList]
    rfl

end Stretch

/-! ## A text and its normal form -/

namespace Percent

theorem decode_normalize (s : String) : decode (normalize s) = decode s :=
  congrArg String.ofList ((congrArg decodeChars (toList_normalize s)).trans
    (decodeChars_normalizeChars s.toList))

theorem isValue_normalize (s : String) : Encoded.isValue (normalize s) = Encoded.isValue s := by
  have hvalue : IsValue (normalize s).toList ↔ IsValue s.toList := by
    rw [toList_normalize, IsValue, IsValue, Ne, normalizeChars_eq_nil, isEncoded_normalizeChars]
  exact decide_eq_decide.2 hvalue

theorem badDefault_normalize (name s : String) (position : Nat) :
    Variable.ofTexts? name (some (normalize s)) = .error (.badDefault (normalize s) position) ↔
      Variable.ofTexts? name (some s) = .error (.badDefault s position) := by
  simp only [Variable.ofTexts?_eq_badDefault, true_and, toList_normalize, fault?_normalizeChars]

/-- Every character stays in its place, and only the digits of triples are put in upper case, both
where the text is put together again and where it is left as it is. So a text and its normal form
stand for the same, and are refused at the same byte if at all. -/
theorem normalize_pointwise (s : String) :
    (∀ i : Nat, (normalize s).toList[i]? =
      s.toList[i]?.map fun c => if isTripleDigit s.toList i then c.toUpper else c) ∧
    Stretch.normalize s = normalize s ∧
    normalize (normalize s) = normalize s ∧
    decode (normalize s) = decode s ∧
    Encoded.isValue (normalize s) = Encoded.isValue s ∧
    ByteScan.fault? (normalize s) = ByteScan.fault? s ∧
    ∀ (name : String) (position : Nat),
      Variable.ofTexts? name (some (normalize s)) = .error (.badDefault (normalize s) position) ↔
        Variable.ofTexts? name (some s) = .error (.badDefault s position) := by
  refine ⟨fun i => ?_, Stretch.normalize_eq s, ?_, decode_normalize s, isValue_normalize s, ?_,
    fun name position => badDefault_normalize name s position⟩
  · rw [toList_normalize, getElem?_normalizeChars]
  · rw [← String.toList_inj, toList_normalize, toList_normalize, normalizeChars_normalizeChars]
  · rw [ByteScan.fault?_eq, ByteScan.fault?_eq, toList_normalize, fault?_normalizeChars]

end Percent

end UriTemplate
