import UriTemplate.Proofs.Matching.Search
import UriTemplate.Proofs.Parts
import UriTemplate.Proofs.Regex.Backtrack

/-!
# The matcher and the pattern

`Template.captures_pattern`: a leftmost-first search for the pattern of a template, read as a regular
expression from its text, captures what the matcher takes, on every candidate. `ways_valueRegex` is
the step for one variable: the ways through the fragment for values are the values that the text
begins with, the longest first.
-/

namespace UriTemplate

namespace Regex

/-! ## Characters -/

theorem le_and_le (c d : Char) : (decide (d ≤ c) && decide (c ≤ d)) = (c == d) := by
  rw [Bool.eq_iff_iff]
  simp only [Bool.and_eq_true, decide_eq_true_eq, beq_iff_eq]
  exact ⟨fun h => Char.le_antisymm h.2 h.1, fun h => h ▸ ⟨Char.le_refl _, Char.le_refl _⟩⟩

theorem ways_unreservedRegex (p : Cursor) : ways unreservedRegex p = p.next isUnreserved := by
  rw [unreservedRegex, ways]
  congr 1
  funext c
  simp only [List.any_cons, List.any_nil, le_and_le]
  simp only [isUnreserved_eq, isAlphanum_eq, Bool.or_false]
  ac_rfl

theorem ways_hexDigitRegex (p : Cursor) : ways hexDigitRegex p = p.next isHexDigit := by
  rw [hexDigitRegex, ways]
  congr 1
  funext c
  simp only [List.any_cons, List.any_nil, isHexDigit, Char.isDigit, Char.le_def, ge_iff_le,
    Bool.or_false]
  ac_rfl

theorem mem_next {p q : Cursor} {accepts : Char → Bool} : q ∈ p.next accepts ↔
    ∃ c cs, p.rest = c :: cs ∧ accepts c ∧ q = p.skip [c] cs := by
  unfold Cursor.next
  split
  · rename_i hrest
    simp [hrest]
  · rename_i c cs hrest
    by_cases hc : accepts c
    · rw [if_pos hc, List.mem_singleton]
      refine ⟨fun h => ⟨c, cs, hrest, hc, h⟩, fun ⟨d, ds, hrest', _, h⟩ => ?_⟩
      obtain ⟨rfl, rfl⟩ := List.cons.inj (hrest.symm.trans hrest')
      exact h
    · rw [if_neg hc]
      refine ⟨fun h => absurd h List.not_mem_nil, fun ⟨d, ds, hrest', hd, _⟩ => ?_⟩
      obtain ⟨rfl, -⟩ := List.cons.inj (hrest.symm.trans hrest')
      exact absurd hd hc

/-! ## Units -/

theorem ways_unitRegex (p : Cursor) : ways unitRegex p = p.next isUnreserved ++
    (p.next (· == percentMark)).flatMap fun q =>
      (q.next isHexDigit).flatMap (·.next isHexDigit) := by
  rw [unitRegex, ways, ways_all_singleton, ways_unreservedRegex, ways_all_cons]
  congr 2
  funext q
  rw [ways_all_singleton, ways, repeated, ways_hexDigitRegex]
  congr 1
  funext q
  rw [repeated, ways_hexDigitRegex]
  exact List.flatMap_singleton' _

theorem ways_unit {u : List Char} (h : IsUnit u) (place : Nat) (cs : List Char)
    (groups : List (Nat × List Char)) :
    ways unitRegex ⟨place, u ++ cs, groups⟩ = [⟨place + u.length, cs, groups⟩] := by
  rw [ways_unitRegex]
  cases h with
  | char hc =>
    simp [Cursor.next, Cursor.skip, hc, isUnreserved_ne_percentMark hc]
  | triple hhi hlo =>
    simp [Cursor.next, Cursor.skip, percentMark_not_unreserved, hhi, hlo]

theorem ways_unit_other {c : Char} {cs : List Char} (hc : isUnreserved c = false)
    (hs : Piece.startsTriple (c :: cs) = false) (place : Nat) (groups : List (Nat × List Char)) :
    ways unitRegex ⟨place, c :: cs, groups⟩ = [] := by
  rw [ways_unitRegex, List.eq_nil_iff_forall_not_mem]
  intro q hq
  simp only [List.mem_append, List.mem_flatMap, mem_next] at hq
  rcases hq with ⟨d, ds, hrest, hd, -⟩ | ⟨_, ⟨d, ds, hrest, hd, rfl⟩, _, ⟨hi, his, hrest', hhi, rfl⟩,
    lo, los, hrest'', hlo, -⟩
  · obtain ⟨rfl, -⟩ := List.cons.inj hrest
    simp [hd] at hc
  · obtain ⟨rfl, rfl⟩ := List.cons.inj hrest
    rw [show cs = hi :: lo :: los from hrest'.trans (congrArg (hi :: ·) hrest'')] at hs
    simp [Piece.startsTriple, hhi, hlo, beq_iff_eq.1 hd] at hs

/-! ## Values -/

theorem more_unit (groups : List (Nat × List Char)) {n : Nat} {place : Nat} {rest : List Char}
    (hn : rest.length ≤ n) : more (ways unitRegex) n ⟨place, rest, groups⟩ =
      (valueCuts rest).map (fun q => ⟨place + q.1.length, q.2, groups⟩) ++
        [⟨place, rest, groups⟩] := by
  induction rest using unitRec generalizing n place with
  | nil => cases n <;> simp [more, ways_unitRegex, Cursor.next, valueCuts]
  | unit u cs hu ih =>
    have hpos := hu.length_pos
    rw [List.length_append] at hn
    obtain ⟨n, rfl⟩ : ∃ k, n = k + 1 := ⟨n - 1, by omega⟩
    rw [more, ways_unit hu, List.filter_cons_of_pos (by simp; omega), List.filter_nil,
      List.flatMap_singleton, ih (by omega), valueCuts_unit hu]
    simp [Nat.add_assoc]
  | other c cs hc hs =>
    obtain ⟨n, rfl⟩ : ∃ k, n = k + 1 := ⟨n - 1, by simp at hn; omega⟩
    rw [more, ways_unit_other hc hs, valueCuts_other hc hs]
    rfl

theorem ways_valueRegex (p : Cursor) :
    ways valueRegex p = (valueCuts p.rest).map fun q => p.skip q.1 q.2 := by
  obtain ⟨place, rest, groups⟩ := p
  rw [valueRegex, ways]
  induction rest using unitRec with
  | nil => simp [ways_unitRegex, Cursor.next, valueCuts]
  | unit u cs hu _ =>
    rw [ways_unit hu, List.flatMap_singleton, more_unit groups (Nat.le_refl _), valueCuts_unit hu]
    simp [Cursor.skip, Nat.add_assoc]
  | other c cs hc hs =>
    rw [ways_unit_other hc hs, valueCuts_other hc hs]
    rfl

theorem ways_group (index : Nat) (p : Cursor) :
    ways (.group index (all [valueRegex])) p = (valueCuts p.rest).map fun q =>
      { p.skip q.1 q.2 with groups := (index, q.1) :: p.groups } := by
  rw [ways, ways_all_singleton, ways_valueRegex, List.map_map]
  refine List.map_congr_left fun q hq => ?_
  obtain ⟨hrest, -⟩ := mem_valueCuts.1 hq
  simp [Cursor.skip, hrest]

theorem captures_valuePattern : ∃ program,
    read ("^" ++ Part.valuePattern ++ "$") = some program ∧
    ∀ cs, (program.captures? cs).isSome = decide (IsValue cs) := by
  have hread : read ("^" ++ Part.valuePattern ++ "$") =
      some ⟨all [.start, valueRegex, .stop], 0⟩ := by
    rw [read, Part.valuePattern, String.toList_append, String.toList_append]
    rfl
  refine ⟨_, hread, fun cs => ?_⟩
  have hways : ways (all [valueRegex, .stop]) ⟨0, cs, []⟩ =
      (valueCuts cs).flatMap fun q => if q.2 = [] then [⟨q.1.length, [], []⟩] else [] := by
    rw [ways_all_cons, ways_valueRegex, List.flatMap_map]
    refine congrArg List.flatten (List.map_congr_left fun q _ => ?_)
    rw [ways_all_singleton, ways]
    split <;> simp_all [Cursor.skip]
  rw [Program.captures?, find?_start, Option.isSome_map, hways, Bool.eq_iff_iff,
    decide_eq_true_eq, List.isSome_head?]
  constructor
  · intro hne
    obtain ⟨_, hway⟩ := List.exists_mem_of_ne_nil _ hne
    obtain ⟨⟨v, rest⟩, hcut, hend⟩ := List.mem_flatMap.1 hway
    obtain ⟨rfl, hv⟩ := mem_valueCuts.1 hcut
    cases rest with
    | nil => rwa [List.append_nil]
    | cons c cs => cases hend
  · intro hcs
    have hmem := mem_valueCuts.2 ⟨(List.append_nil cs).symm, hcs⟩
    exact List.ne_nil_of_mem (List.mem_flatMap.2 ⟨_, hmem, List.mem_singleton_self _⟩)

/-! ## Fields -/

/-- What groups have captured after values for more variables. -/
def captured : Nat → List (List Char) → List (Nat × List Char) → List (Nat × List Char)
  | _, [], before => before
  | groups, v :: vs, before => captured (groups + 1) vs ((groups + 1, v) :: before)

theorem items_literal (groups : Nat) (l : Literal) (ps : List Part) :
    items groups (l.parts ++ ps) = l.text.toList.map .char ++ items groups ps := by
  by_cases hl : l.text = ""
  · simp [Literal.parts_of_empty hl, hl]
  · rw [Literal.parts_of_ne hl]
    rfl

theorem ways_literal (l : Literal) (es : List Regex) (p : Cursor) :
    ways (all (l.text.toList.map .char ++ es)) p =
      match l.text.toList.isPrefixOf? p.rest with
      | some rest => ways (all es) (p.skip l.text.toList rest)
      | none => [] := by
  rw [ways_all_append, ways_chars]
  cases l.text.toList.isPrefixOf? p.rest <;> simp

/-- The ways through the rest of a pattern are the fillings of the fields left, in the same order. -/
theorem ways_fields (tail : Literal) (fs : List Field) : ∀ (groups : Nat) (p : Cursor),
    ways (all (items groups (fs.flatMap (fun f => f.before.parts ++ [.expression f.slot]) ++
      tail.parts) ++ [.stop])) p =
      (fillings tail.text.toList fs p.rest).map fun vs =>
        ⟨p.place + p.rest.length, [], captured groups vs p.groups⟩ := by
  induction fs with
  | nil =>
    intro groups p
    have hitems := items_literal groups tail []
    rw [List.append_nil] at hitems
    rw [List.flatMap_nil, List.nil_append, hitems, items, List.append_nil, ways_literal, fillings]
    cases hprefix : tail.text.toList.isPrefixOf? p.rest with
    | none =>
      rw [if_neg]
      · rfl
      · intro hrest
        rw [hrest, List.isPrefixOf?_eq_some_iff_append_eq.2 (List.append_nil _)] at hprefix
        cases hprefix
    | some rest =>
      rw [List.isPrefixOf?_eq_some_iff_append_eq, eq_comm] at hprefix
      cases rest with
      | nil => simp [ways_all_singleton, ways, Cursor.skip, hprefix, captured]
      | cons c cs => simp [ways_all_singleton, ways, Cursor.skip, hprefix]
  | cons f fs ih =>
    intro groups p
    rw [List.flatMap_cons, List.append_assoc, List.append_assoc, items_literal, List.append_assoc,
      ways_literal, fillings]
    cases hprefix : f.before.text.toList.isPrefixOf? p.rest with
    | none => rfl
    | some rest =>
      rw [List.isPrefixOf?_eq_some_iff_append_eq, eq_comm] at hprefix
      simp only [items, List.cons_append]
      rw [ways_all_cons, ways_group, List.flatMap_map, List.map_flatMap]
      refine congrArg List.flatten (List.map_congr_left fun q hq => ?_)
      obtain ⟨hrest, -⟩ := mem_valueCuts.1 hq
      rw [List.nil_append, ih, List.map_map]
      refine List.map_congr_left fun vs _ => ?_
      have hrest' : rest = q.1 ++ q.2 := hrest
      simp [Cursor.skip, captured, hprefix, hrest', Nat.add_assoc]

/-! ## Captures -/

/-- Every later group has the value at its place, and earlier ones are not touched. -/
theorem lookup_captured (vs : List (List Char)) : ∀ (groups k : Nat)
    (before : List (Nat × List Char)), (captured groups vs before).lookup k =
      if groups < k ∧ k ≤ groups + vs.length then vs[k - groups - 1]? else before.lookup k := by
  induction vs with
  | nil =>
    intro groups k before
    rw [if_neg (by simp)]
    rfl
  | cons v vs ih =>
    intro groups k before
    rw [captured, ih, List.length_cons]
    by_cases hlater : groups + 1 < k ∧ k ≤ groups + 1 + vs.length
    · rw [if_pos hlater, if_pos (by omega), show k - groups - 1 = k - (groups + 1) - 1 + 1 by omega,
        List.getElem?_cons_succ]
    rw [if_neg hlater]
    by_cases hk : k = groups + 1
    · subst hk
      rw [if_pos (by omega), List.lookup_cons_self, show groups + 1 - groups - 1 = 0 by omega,
        List.getElem?_cons_zero]
    · rw [if_neg (by omega), List.lookup_cons, show (k == groups + 1) = false by simpa using hk]

theorem map_lookup_captured (vs : List (List Char)) :
    (List.range vs.length).map (fun i => (captured 0 vs []).lookup (i + 1)) = vs.map some := by
  refine List.ext_getElem (by simp) fun i hi _ => ?_
  have hi' : i < vs.length := by simpa using hi
  rw [List.getElem_map, List.getElem_range, List.getElem_map, lookup_captured, if_pos (by omega),
    show i + 1 - 0 - 1 = i by omega, List.getElem?_eq_getElem hi']

end Regex

namespace Template

open Regex

theorem slotCount_parts (t : Template) : slotCount t.parts = t.fields.length := by
  rw [slotCount, filterMap_slot?_parts, slots, List.length_map]

theorem captures_pattern (t : Template) : ∃ program, Regex.read t.pattern = some program ∧
    ∀ cs, program.captures? cs = (t.segments? cs).map (·.map some) := by
  refine ⟨_, read_pattern t, fun cs => ?_⟩
  have hways := ways_fields t.tail t.fields 0 { place := 0, rest := cs }
  rw [Program.captures?, List.cons_append, find?_start, slotCount_parts, segments?_eq_head?,
    Template.parts, hways, List.head?_map, Option.map_map]
  cases hhead : (fillings t.tail.text.toList t.fields cs).head? with
  | none => rfl
  | some vs =>
    have hfills := mem_fillings.1 (List.mem_of_head? hhead)
    rw [Option.map_some, Option.map_some, Function.comp_apply, ← hfills.length]
    exact congrArg some (map_lookup_captured vs)

end Template

end UriTemplate
