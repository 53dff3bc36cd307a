import UriTemplate.Matching
import UriTemplate.Proofs.Percent.Pieces

/-!
# Values at the front of a text

`valueCuts cs`: every way to cut a value off the front of `cs`, the longest first.

* `mem_valueCuts`: these are exactly the values that `cs` begins with.
* `valueCuts_pairwise`: their lengths decrease, so the order is by preference.
* `Reading.values_eq`: one pass of the matcher finds the same values up to its limit, in the same
  order.
-/

namespace UriTemplate

/-- Every way to cut a value off the front of a text, the longest first: the value and the rest. -/
def valueCuts : List Char → List (List Char × List Char)
  | [] => []
  | c :: cs =>
    if isUnreserved c then (valueCuts cs).map (fun q => (c :: q.1, q.2)) ++ [([c], cs)]
    else
      match cs with
      | hi :: lo :: cs =>
        if c == percentMark && isHexDigit hi && isHexDigit lo then
          (valueCuts cs).map (fun q => (c :: hi :: lo :: q.1, q.2)) ++ [([c, hi, lo], cs)]
        else []
      | _ => []

theorem valueCuts_unit {u : List Char} (h : IsUnit u) (cs : List Char) :
    valueCuts (u ++ cs) = (valueCuts cs).map (fun q => (u ++ q.1, q.2)) ++ [(u, cs)] := by
  cases h with
  | char hc =>
    rw [valueCuts.eq_def]
    simp [hc]
  | triple hhi hlo => simp [valueCuts, percentMark_not_unreserved, hhi, hlo]

theorem valueCuts_other {c : Char} {cs : List Char} (hc : isUnreserved c = false)
    (hs : Piece.startsTriple (c :: cs) = false) : valueCuts (c :: cs) = [] := by
  unfold valueCuts
  rw [if_neg (by simp [hc])]
  split
  · rw [if_neg]
    simpa [Piece.startsTriple] using hs
  · rfl

theorem mem_valueCuts {cs v s : List Char} : (v, s) ∈ valueCuts cs ↔ cs = v ++ s ∧ IsValue v := by
  induction cs using unitRec generalizing v s with
  | nil =>
    refine ⟨fun h => by simp [valueCuts] at h, fun ⟨heq, hv⟩ => ?_⟩
    exact absurd (List.append_eq_nil_iff.1 heq.symm).1 hv.1
  | unit u cs hu ih =>
    simp only [valueCuts_unit hu, List.mem_append, List.mem_map, List.mem_singleton, Prod.mk.injEq,
      Prod.exists]
    refine ⟨fun h => ?_, fun ⟨heq, hv⟩ => ?_⟩
    · rcases h with ⟨v, s, hmem, rfl, rfl⟩ | ⟨rfl, rfl⟩
      · obtain ⟨rfl, hv⟩ := ih.1 hmem
        exact ⟨(List.append_assoc ..).symm, hu.isValue_append.2 (.inr hv)⟩
      · exact ⟨rfl, by simpa using hu.isValue_append.2 (.inl rfl)⟩
    · obtain ⟨u', w, hu', rfl, hw⟩ := hv.front
      rw [List.append_assoc] at heq
      obtain ⟨rfl, rfl⟩ := hu.unique hu' heq
      rcases hw with rfl | hw
      · exact .inr ⟨List.append_nil u, rfl⟩
      · exact .inl ⟨w, s, ih.2 ⟨rfl, hw⟩, rfl, rfl⟩
  | other c cs hc hs =>
    rw [valueCuts_other hc hs]
    exact ⟨fun h => by simp at h, fun ⟨heq, hv⟩ => absurd hv (not_isValue_other hc hs heq)⟩

theorem valueCuts_pairwise (cs : List Char) :
    (valueCuts cs).Pairwise fun a b => b.1.length < a.1.length := by
  induction cs using unitRec with
  | nil => exact .nil
  | unit u cs hu ih =>
    rw [valueCuts_unit hu, List.pairwise_append, List.pairwise_map]
    refine ⟨ih.imp fun h => by simpa using h, by simp, ?_⟩
    simp only [List.mem_map, List.mem_singleton]
    intro _ hq _ hlast
    obtain ⟨⟨v, s⟩, hmem, rfl⟩ := hq
    subst hlast
    have hv := List.length_pos_iff.2 (mem_valueCuts.1 hmem).2.1
    simp only [List.length_append]
    omega
  | other c cs hc hs =>
    rw [valueCuts_other hc hs]
    exact .nil

/-! ## One pass of the matcher -/

namespace Reading

theorem ends_unit {u : List Char} (h : IsUnit u) (taken : List (List Char))
    (found : List Reading) (place : Nat) (word : List Char) (room : Nat) (cs : List Char) :
    ends taken found place word room (u ++ cs) =
      if u.length ≤ room then
        ends taken (⟨place + u.length, cs, (u.reverse ++ word) :: taken⟩ :: found)
          (place + u.length) (u.reverse ++ word) (room - u.length) cs
      else found := by
  cases h with
  | char hc =>
    by_cases hroom : 1 ≤ room
    · rw [if_pos (by simpa using hroom)]
      show ends _ _ _ _ _ (_ :: cs) = _
      rw [ends.eq_def]
      simp [hc, hroom]
    · rw [if_neg (by simpa using hroom)]
      show ends _ _ _ _ _ (_ :: cs) = _
      rw [ends.eq_def]
      simp only [hc, hroom, decide_false, Bool.and_false, Bool.false_eq_true, if_false]
      split
      · rw [if_neg (by simp [isUnreserved_ne_percentMark hc])]
      · rfl
  | triple hhi hlo =>
    show ends _ _ _ _ _ (percentMark :: _ :: _ :: cs) = _
    rw [ends.eq_def]
    simp [percentMark_not_unreserved, hhi, hlo]

theorem ends_other {c : Char} {cs : List Char} (hc : isUnreserved c = false)
    (hs : Piece.startsTriple (c :: cs) = false) (taken : List (List Char))
    (found : List Reading) (place : Nat) (word : List Char) (room : Nat) :
    ends taken found place word room (c :: cs) = found := by
  rw [ends.eq_def]
  simp only [hc, Bool.false_and, Bool.false_eq_true, if_false]
  split
  · simp only [Piece.startsTriple] at hs
    simp [hs]
  · rfl

theorem ends_eq (taken : List (List Char)) (found : List Reading) (place : Nat)
    (word : List Char) (room : Nat) (rest : List Char) :
    ends taken found place word room rest =
      ((valueCuts rest).filter (fun q => q.1.length ≤ room)).map
        (fun q => ⟨place + q.1.length, q.2, (q.1.reverse ++ word) :: taken⟩) ++ found := by
  induction rest using unitRec generalizing found place word room with
  | nil => simp [ends, valueCuts]
  | unit u cs hu ih =>
    rw [ends_unit hu, valueCuts_unit hu]
    by_cases hroom : u.length ≤ room
    · have hlen : ∀ n, (u.length + n ≤ room) = (n ≤ room - u.length) := fun n => propext (by omega)
      rw [if_pos hroom, ih]
      simp [List.filter_append, List.filter_map, Function.comp_def, hroom, hlen, Nat.add_assoc]
    · have hlen : ∀ n, ¬ (u.length + n ≤ room) := fun n => by omega
      rw [if_neg hroom]
      simp [List.filter_append, List.filter_map, Function.comp_def, hroom, hlen]
  | other c cs hc hs => simp [ends_other hc hs, valueCuts_other hc hs]

/-- The reading that goes on from `r` with a value cut off its rest. -/
def take (r : Reading) (q : List Char × List Char) : Reading :=
  ⟨r.place + q.1.length, q.2, q.1.reverse :: r.taken⟩

theorem values_eq (r : Reading) (limit : Nat) : r.values limit =
    ((valueCuts r.rest).filter (fun q => q.1.length ≤ limit - r.place)).map r.take := by
  rw [values, ends_eq]
  simp [take]

end Reading

end UriTemplate
