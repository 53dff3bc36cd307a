import UriTemplate.Proofs.Matching.Greedy

/-!
# The matcher and plain backtracking

`fillings` lists every filling of a template by plain backtracking over its fields, longest values
first. The list is in the order of preference (`fillings_pairwise`), so its first element is the
greedy one, which is what the matcher's single pass finds (`segments?_eq_head?`).
-/

namespace UriTemplate

/-- Every way to fill fields and the tail so as to spell a text, by preference. -/
def fillings (tail : List Char) : List Field → List Char → List (List (List Char))
  | [], cs => if cs = tail then [[]] else []
  | f :: fs, cs =>
    match f.before.text.toList.isPrefixOf? cs with
    | none => []
    | some rest => (valueCuts rest).flatMap fun q => (fillings tail fs q.2).map (q.1 :: ·)

theorem mem_fillings {tail : List Char} {fs : List Field} {vs : List (List Char)} {cs : List Char} :
    vs ∈ fillings tail fs cs ↔ Fills IsValue tail fs vs cs := by
  induction fs generalizing vs cs with
  | nil =>
    by_cases hcs : cs = tail
    · subst hcs
      simp only [fillings, if_true, List.mem_singleton]
      exact ⟨fun h => h ▸ .nil, fun h => by cases h; rfl⟩
    · simp only [fillings, hcs, if_false, List.not_mem_nil, false_iff]
      intro h
      cases h
      exact hcs rfl
  | cons f fs ih =>
    rw [fillings]
    split
    · rename_i hprefix
      refine ⟨fun h => absurd h List.not_mem_nil, fun h => ?_⟩
      cases h with
      | cons _ _ =>
        rw [List.isPrefixOf?_eq_some_iff_append_eq.2 rfl] at hprefix
        cases hprefix
    · rename_i rest hprefix
      obtain rfl := List.isPrefixOf?_eq_some_iff_append_eq.1 hprefix
      simp only [List.mem_flatMap, List.mem_map, Prod.exists, mem_valueCuts, ih]
      refine ⟨fun ⟨v, s, ⟨hrest, hv⟩, ws, hws, hvs⟩ => ?_, fun h => ?_⟩
      · rw [hrest, ← hvs]
        exact .cons hv hws
      · generalize hcs : f.before.text.toList ++ rest = cs at h
        cases h with
        | cons hv h => exact ⟨_, _, ⟨List.append_cancel_left hcs, hv⟩, _, h, rfl⟩

theorem fillings_pairwise (tail : List Char) (fs : List Field) (cs : List Char) :
    (fillings tail fs cs).Pairwise fun vs ws => Shorter ws vs := by
  induction fs generalizing cs with
  | nil =>
    rw [fillings]
    split <;> simp
  | cons f fs ih =>
    rw [fillings]
    split
    · exact .nil
    · rename_i rest _
      rw [List.pairwise_flatMap]
      refine ⟨fun q _ => ?_, (valueCuts_pairwise rest).imp fun {q q'} hq vs hvs ws hws => ?_⟩
      · rw [List.pairwise_map]
        exact (ih q.2).imp fun h => .cons h
      · obtain ⟨_, -, rfl⟩ := List.mem_map.1 hvs
        obtain ⟨_, -, rfl⟩ := List.mem_map.1 hws
        exact .rel hq

namespace Template

theorem segments?_eq_head? (t : Template) (cs : List Char) :
    t.segments? cs = (fillings t.tail.text.toList t.fields cs).head? := by
  cases hs : t.segments? cs with
  | none =>
    have hnone := segments?_eq_none_iff.1 hs
    have hnil : fillings t.tail.text.toList t.fields cs = [] :=
      List.eq_nil_iff_forall_not_mem.2 fun vs hvs => hnone ⟨vs, mem_fillings.1 hvs⟩
    rw [hnil, List.head?_nil]
  | some vs =>
    obtain ⟨hvs, hbest⟩ := segments?_eq_some hs
    have hmem := mem_fillings.2 hvs
    have hord := fillings_pairwise t.tail.text.toList t.fields cs
    have hfills : ∀ ws ∈ fillings t.tail.text.toList t.fields cs, t.Fills IsValue ws cs :=
      fun ws hws => mem_fillings.1 hws
    generalize fillings t.tail.text.toList t.fields cs = l at hmem hord hfills
    match l, hmem, hord with
    | ws :: l, hmem, hord =>
      rw [List.head?_cons, Option.some.injEq]
      rcases List.mem_cons.1 hmem with rfl | hmem
      · rfl
      -- the first filling would be preferred to `vs` and at most as good
      · have hlt := (List.pairwise_cons.1 hord).1 vs hmem
        exact absurd ((hbest ws (hfills ws List.mem_cons_self)).trans_shorter hlt)
          (Shorter.irrefl ws)

end Template

end UriTemplate
