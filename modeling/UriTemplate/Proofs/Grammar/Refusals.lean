import UriTemplate.Proofs.Grammar.Variables
import UriTemplate.Proofs.Percent.ByteScan

/-!
# Refused variables

Where a text is refused as a variable, and for what (`Variable.parse_first_fault`).

* A name is refused at the first character that no name goes on with (`Name.IsFirstFault`), counted in
  characters.
* A default is refused behind its longest beginning that is in the grammar (`Encoded.IsFirstFault`),
  counted in bytes. A longer beginning would hold the character that the scan stops at, and that
  character is no part of encoded text (`Encoded.prefix_of_isEncoded`).

Both places are described without the scans. A text that is not in the grammar has such a place
(`exists_first_fault`), and the scan reports it (`fault?_append`), so the descriptions are exact.
-/

namespace UriTemplate

open Abnf (Derives varname vardefault)

/-! ## Names -/

namespace Name

/-- Nothing or a name stands before the character `c`, `position` characters long, and with `c` it is
no name. -/
def IsFirstFault (cs : List Char) (c : Char) (position : Nat) : Prop :=
  ∃ before after, cs = before ++ c :: after ∧ before.length = position ∧
    (before = [] ∨ Derives varname before) ∧ ¬ Derives varname (before ++ [c])

theorem fault?_append {before : List Char} {c : Char} (hbefore : before = [] ∨ IsName before)
    (hc : ¬ IsName (before ++ [c])) (after : List Char) :
    fault? (before ++ c :: after) = some (.badChar c before.length) := by
  cases before with
  | nil =>
    have hstart : c.isAlphanum = false := by simpa [IsName] using hc
    simp [fault?, hstart]
  | cons d before =>
    obtain ⟨hd, hall⟩ := hbefore.resolve_left (List.cons_ne_nil _ _)
    have hnext : isNameChar c = false := by
      rw [Bool.eq_false_iff]
      intro hnext
      exact hc ⟨hd, List.forall_mem_append.2 ⟨hall, List.forall_mem_singleton.2 hnext⟩⟩
    have hfind : (before ++ c :: after).find? (!isNameChar ·) = some c :=
      List.find?_eq_some_iff_append.2 ⟨by simp [hnext], before, after, rfl, by simpa using hall⟩
    rw [List.cons_append, fault?, if_pos hd, hfind, List.takeWhile_append_of_pos hall]
    simp [hnext, Nat.add_comm]

theorem exists_first_fault {cs : List Char} (hne : cs ≠ []) (h : ¬ IsName cs) :
    ∃ before c after, cs = before ++ c :: after ∧ (before = [] ∨ IsName before) ∧
      ¬ IsName (before ++ [c]) := by
  obtain ⟨d, cs, rfl⟩ := List.exists_cons_of_ne_nil hne
  by_cases hd : d.isAlphanum
  · cases hfind : cs.find? (!isNameChar ·) with
    | none =>
      have hall : ∀ x ∈ cs, isNameChar x := by simpa using hfind
      exact absurd ⟨hd, hall⟩ h
    | some c =>
      obtain ⟨hc, run, after, rfl, hrun⟩ := List.find?_eq_some_iff_append.1 hfind
      have hall : ∀ x ∈ run, isNameChar x := by simpa using hrun
      refine ⟨d :: run, c, after, rfl, .inr ⟨hd, hall⟩, fun hname => ?_⟩
      have hnext := hname.2 c (List.mem_append_right _ List.mem_cons_self)
      simp [hnext] at hc
  · exact ⟨[], d, cs, rfl, .inl rfl, fun hname => hd hname.1⟩

theorem fault?_eq_empty {cs : List Char} : fault? cs = some .empty ↔ cs = [] := by
  cases cs with
  | nil => simp [fault?]
  | cons d cs =>
    refine ⟨fun h => ?_, fun h => absurd h (List.cons_ne_nil d cs)⟩
    rw [fault?] at h
    split at h
    · obtain ⟨bad, -, hbad⟩ := Option.map_eq_some_iff.1 h
      cases hbad
    · cases h

theorem fault?_eq_badChar {cs : List Char} {c : Char} {position : Nat} :
    fault? cs = some (.badChar c position) ↔ IsFirstFault cs c position := by
  simp only [IsFirstFault, Abnf.derives_varname]
  constructor
  · intro h
    have hne : cs ≠ [] := by
      rintro rfl
      cases h
    have hname : ¬ IsName cs := by
      rw [← fault?_eq_none_iff, h]
      exact nofun
    obtain ⟨before, d, after, rfl, hbefore, hd⟩ := exists_first_fault hne hname
    rw [fault?_append hbefore hd] at h
    cases h
    exact ⟨before, after, rfl, rfl, hbefore, hd⟩
  · rintro ⟨before, after, rfl, rfl, hbefore, hc⟩
    exact fault?_append hbefore hc after

theorem exists_badChar_iff {cs : List Char} :
    (∃ c position, fault? cs = some (.badChar c position)) ↔ cs ≠ [] ∧ ¬ Derives varname cs := by
  rw [Abnf.derives_varname, ← fault?_eq_none_iff, Ne, ← fault?_eq_empty]
  cases fault? cs with
  | none => simp
  | some fault => cases fault <;> simp

end Name

/-! ## Defaults -/

namespace Encoded

/-- The longest beginning of a text that is in the grammar of defaults has `position` bytes, and
something stands behind it. -/
def IsFirstFault (cs : List Char) (position : Nat) : Prop :=
  ∃ before after, cs = before ++ after ∧ after ≠ [] ∧ byteLength before = position ∧
    Derives vardefault before ∧ ∀ other, other <+: cs → Derives vardefault other → other <+: before

theorem fault?_append {before : List Char} {c : Char} {rest : List Char} (hbefore : IsEncoded before)
    (hc : isUnreserved c = false) (hs : Piece.startsTriple (c :: rest) = false) :
    fault? (before ++ c :: rest) = some (byteLength before) := by
  induction before using unitRec with
  | nil => exact fault?_other hc hs
  | unit u cs hu ih =>
    rw [List.append_assoc, fault?_unit hu, ih (hu.isEncoded_append.1 hbefore), byteLength_append,
      byteLength_eq_length hu.toNat_lt]
    rfl
  | other d cs hd hds => exact absurd ((isEncoded_cons hds).1 hbefore).1 (by simp [hd])

theorem exists_first_fault {cs : List Char} (h : ¬ IsEncoded cs) :
    ∃ before c rest, cs = before ++ c :: rest ∧ IsEncoded before ∧ isUnreserved c = false ∧
      Piece.startsTriple (c :: rest) = false := by
  induction cs using unitRec with
  | nil => exact absurd isEncoded_nil h
  | unit u cs hu ih =>
    obtain ⟨before, c, rest, rfl, hbefore, hc, hs⟩ := ih (mt hu.isEncoded_append.2 h)
    exact ⟨u ++ before, c, rest, (List.append_assoc ..).symm, hu.isEncoded_append.2 hbefore, hc, hs⟩
  | other c cs hc hs => exact ⟨[], c, cs, rfl, isEncoded_nil, hc, hs⟩

/-- No encoded beginning of a text goes beyond a character that is no part of any. -/
theorem prefix_of_isEncoded {before other rest : List Char} {c : Char} (hbefore : IsEncoded before)
    (hc : isUnreserved c = false) (hs : Piece.startsTriple (c :: rest) = false)
    (hstart : other <+: before ++ c :: rest) (hother : IsEncoded other) : other <+: before := by
  rcases List.prefix_or_prefix_of_prefix hstart (List.prefix_append before _) with h | ⟨v, rfl⟩
  · exact h
  obtain ⟨s, hs'⟩ := hstart
  rw [List.append_assoc, List.append_cancel_left_eq] at hs'
  by_cases hv : v = []
  · simp [hv]
  · exact absurd ⟨hv, (isEncoded_append hbefore).1 hother⟩ (not_isValue_other hc hs hs'.symm)

theorem isFirstFault_append {before rest : List Char} {c : Char} (hbefore : IsEncoded before)
    (hc : isUnreserved c = false) (hs : Piece.startsTriple (c :: rest) = false) :
    IsFirstFault (before ++ c :: rest) (byteLength before) := by
  refine ⟨before, c :: rest, rfl, List.cons_ne_nil _ _, rfl, Abnf.derives_vardefault.2 hbefore,
    fun other hstart hother => ?_⟩
  exact prefix_of_isEncoded hbefore hc hs hstart (Abnf.derives_vardefault.1 hother)

theorem IsFirstFault.unique {cs : List Char} {p q : Nat} (h : IsFirstFault cs p)
    (h' : IsFirstFault cs q) : p = q := by
  obtain ⟨before, after, hcs, -, rfl, hbefore, hlongest⟩ := h
  obtain ⟨before', after', hcs', -, rfl, hbefore', hlongest'⟩ := h'
  have hle := hlongest _ (hcs' ▸ List.prefix_append before' after') hbefore'
  have hge := hlongest' _ (hcs ▸ List.prefix_append before after) hbefore
  rw [hge.eq_of_length_le hle.length_le]

theorem IsFirstFault.not_isEncoded {cs : List Char} {position : Nat}
    (h : IsFirstFault cs position) : ¬ IsEncoded cs := by
  obtain ⟨before, after, rfl, hafter, -, -, hlongest⟩ := h
  intro hcs
  have hle := (hlongest _ (List.prefix_refl _) (Abnf.derives_vardefault.2 hcs)).length_le
  have hpos := List.length_pos_iff.2 hafter
  rw [List.length_append] at hle
  omega

theorem fault?_eq_some {cs : List Char} {position : Nat} :
    fault? cs = some position ↔ IsFirstFault cs position := by
  have hfault : ¬ IsEncoded cs → ∃ found, fault? cs = some found ∧ IsFirstFault cs found := by
    intro h
    obtain ⟨before, c, rest, rfl, hbefore, hc, hs⟩ := exists_first_fault h
    exact ⟨_, fault?_append hbefore hc hs, isFirstFault_append hbefore hc hs⟩
  constructor
  · intro h
    have hencoded : ¬ IsEncoded cs := by
      rw [← fault?_eq_none_iff, h]
      exact nofun
    obtain ⟨found, hfound, hfirst⟩ := hfault hencoded
    rw [hfound] at h
    cases h
    exact hfirst
  · intro h
    obtain ⟨found, hfound, hfirst⟩ := hfault h.not_isEncoded
    rw [hfound, hfirst.unique h]

theorem exists_fault_iff {cs : List Char} :
    (∃ position, fault? cs = some position) ↔ ¬ Derives vardefault cs := by
  rw [Abnf.derives_vardefault, ← fault?_eq_none_iff, ← Option.isSome_iff_exists,
    Option.isSome_iff_ne_none]

end Encoded

/-! ## Expressions -/

namespace Variable

/-- A text is cut at its first mark of a default into a name and a default; a text without a mark is a
name by itself. -/
inductive IsCut : String → String → Option String → Prop
  | bare {name : String} : defaultMark ∉ name.toList → IsCut name name none
  | marked {name default : String} : defaultMark ∉ name.toList →
      IsCut (name ++ defaultMark.toString ++ default) name (some default)

theorem exists_isCut (s : String) : ∃ name default, IsCut s name default := by
  have hsplit := List.takeWhile_append_dropWhile (p := (· != defaultMark)) (l := s.toList)
  have hname : defaultMark ∉ s.toList.takeWhile (· != defaultMark) := by
    intro hmem
    have hne := List.all_eq_true.1 List.all_takeWhile _ hmem
    simp at hne
  cases hrest : s.toList.dropWhile (· != defaultMark) with
  | nil =>
    rw [hrest, List.append_nil] at hsplit
    exact ⟨s, none, .bare (hsplit ▸ hname)⟩
  | cons c default =>
    have hmark := List.head?_dropWhile_not (· != defaultMark) s.toList
    rw [hrest] at hsplit hmark
    obtain rfl : c = defaultMark := by simpa using hmark
    have hs : String.ofList (s.toList.takeWhile (· != defaultMark)) ++ defaultMark.toString ++
        String.ofList default = s := by
      rw [← String.toList_inj, String.toList_append, String.toList_append, String.toList_ofList,
        String.toList_ofList, List.append_assoc]
      exact hsplit
    rw [← hs]
    exact ⟨_, _, .marked (by rwa [String.toList_ofList])⟩

theorem IsCut.parse_eq {s name : String} {default : Option String} (h : IsCut s name default) :
    parse s = ofTexts? name default := by
  have hrun : defaultMark ∉ name.toList → ∀ c ∈ name.toList, (c != defaultMark) = true :=
    fun hname c hc => bne_iff_ne.2 fun heq => hname (heq ▸ hc)
  cases h with
  | bare hname =>
    have htake := @List.takeWhile_append_of_pos _ _ _ [] (hrun hname)
    have hdrop := @List.dropWhile_append_of_pos _ _ _ [] (hrun hname)
    simp only [List.append_nil, List.takeWhile_nil, List.dropWhile_nil] at htake hdrop
    simp only [parse, htake, hdrop, String.ofList_toList]
  | @marked _ default hname =>
    have hs : (name ++ defaultMark.toString ++ default).toList =
        name.toList ++ defaultMark :: default.toList := by
      rw [String.toList_append, String.toList_append, List.append_assoc]
      rfl
    simp only [parse, hs, List.takeWhile_append_of_pos (hrun hname),
      List.dropWhile_append_of_pos (hrun hname)]
    simp

/-! ## Refusals -/

section
variable {name : String} {default : Option String}

theorem exists_badName_iff :
    (∃ n c position, ofTexts? name default = .error (.badName n (.badChar c position))) ↔
      name ≠ "" ∧ ¬ Derives varname name.toList := by
  rw [Ne, ← String.toList_eq_nil_iff, ← Ne, ← Name.exists_badChar_iff]
  simp only [ofTexts?_eq_badName]
  exact ⟨fun ⟨_, c, position, _, h⟩ => ⟨c, position, h⟩,
    fun ⟨c, position, h⟩ => ⟨name, c, position, rfl, h⟩⟩

theorem exists_badDefault_iff :
    (∃ text position, ofTexts? name default = .error (.badDefault text position)) ↔
      Derives varname name.toList ∧
        ∃ text, default = some text ∧ ¬ Derives vardefault text.toList := by
  simp only [ofTexts?_eq_badDefault, Abnf.derives_varname, ← Encoded.exists_fault_iff]
  exact ⟨fun ⟨text, position, hname, htext, h⟩ => ⟨hname, text, htext, position, h⟩,
    fun ⟨hname, text, htext, position, h⟩ => ⟨text, position, hname, htext, h⟩⟩

end

/-- What reading a text as a variable is refused for. The text is cut at its first `=`. An empty name,
or the first character that no name goes on with, is reported before anything in the default; a
default is reported from the end of the longest beginning that is in the grammar on, in bytes, where
the scan of its bytes stops. The name of a type is refused for what the name of a variable is. -/
theorem parse_first_fault (s : String) :
    (∃ name default, IsCut s name default) ∧
    (∀ name default, IsCut s name default →
      (∀ n, parse s = .error (.badName n .empty) ↔ n = name ∧ name = "") ∧
      ((∃ n c position, parse s = .error (.badName n (.badChar c position))) ↔
        name ≠ "" ∧ ¬ Derives varname name.toList) ∧
      (∀ n c position, parse s = .error (.badName n (.badChar c position)) ↔
        n = name ∧ Name.IsFirstFault name.toList c position) ∧
      ((∃ text position, parse s = .error (.badDefault text position)) ↔
        Derives varname name.toList ∧
          ∃ text, default = some text ∧ ¬ Derives vardefault text.toList) ∧
      (∀ text position, parse s = .error (.badDefault text position) ↔
        Derives varname name.toList ∧ default = some text ∧
          Encoded.IsFirstFault text.toList position)) ∧
    (∀ position, ByteScan.fault? s = some position ↔ Encoded.IsFirstFault s.toList position) ∧
    ∀ fault, Name.ofString? s = .error fault ↔ ofTexts? s none = .error (.badName s fault) := by
  refine ⟨exists_isCut s, fun name default hcut => ?_, fun position => ?_, fun fault => ?_⟩
  · rw [hcut.parse_eq]
    refine ⟨fun n => ?_, exists_badName_iff, fun n c position => ?_, exists_badDefault_iff,
      fun text position => ?_⟩
    · rw [ofTexts?_eq_badName, Name.fault?_eq_empty, String.toList_eq_nil_iff]
    · rw [ofTexts?_eq_badName, Name.fault?_eq_badChar]
    · rw [ofTexts?_eq_badDefault, ← Abnf.derives_varname, Encoded.fault?_eq_some]
  · rw [ByteScan.fault?_eq, Encoded.fault?_eq_some]
  · rw [Name.ofString?_eq_error, ofTexts?_eq_badName]
    exact (and_iff_right rfl).symm

/-- A letter that no name holds stands before a default that is no better. -/
theorem parse_first_fault_naive :
    IsCut "naïve=%zz" "naïve" (some "%zz") ∧ Name.IsFirstFault "naïve".toList 'ï' 2 ∧
    (¬ ∃ text position, parse "naïve=%zz" = .error (.badDefault text position)) ∧
    IsCut "sort=%2c-é=%4" "sort" (some "%2c-é=%4") ∧
    Encoded.IsFirstFault "%2c-é=%4".toList 4 ∧ ¬ Derives vardefault "%2c-é=%4".toList := by
  have hname : parse "naïve=%zz" = .error (.badName "naïve" (.badChar 'ï' 2)) := rfl
  have hdefault : parse "sort=%2c-é=%4" = .error (.badDefault "%2c-é=%4" 4) := rfl
  have hcut : IsCut "naïve=%zz" "naïve" (some "%zz") :=
    @IsCut.marked "naïve" "%zz" (by decide)
  have hcut' : IsCut "sort=%2c-é=%4" "sort" (some "%2c-é=%4") :=
    @IsCut.marked "sort" "%2c-é=%4" (by decide)
  obtain ⟨-, hbadName, hfirst, -, -⟩ := (parse_first_fault "naïve=%zz").2.1 _ _ hcut
  obtain ⟨-, -, -, hbadDefault, hfirst'⟩ := (parse_first_fault "sort=%2c-é=%4").2.1 _ _ hcut'
  refine ⟨hcut, ((hfirst _ _ _).1 hname).2, ?_, hcut', ((hfirst' _ _).1 hdefault).2.2, ?_⟩
  · rw [hname]
    exact nofun
  · obtain ⟨-, text, heq, htext⟩ := hbadDefault.1 ⟨_, _, hdefault⟩
    cases heq
    exact htext

end Variable

end UriTemplate
