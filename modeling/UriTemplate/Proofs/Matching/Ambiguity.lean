import UriTemplate.Proofs.Resolution

/-!
# Which templates are ambiguous

A template is unambiguous if no candidate has two splits (`Template.IsUnambiguous`). Separators
between the variables make it so (`Template.IsSeparated.isUnambiguous`). Two consecutive variables
with nothing between them, or unreserved characters only, make it ambiguous
(`Template.IsBlurred.exists_two_splits`): with a literal `l` between them, `a l a l a` is read as two
values around the first `l` or around the second.

Where no mark stands in the literals between variables there is no third case
(`Template.unambiguous_iff`).
-/

namespace UriTemplate

/-! ## Two fillings -/

theorem isEncoded_of_unreserved {cs : List Char} (h : ∀ c ∈ cs, isUnreserved c) :
    IsEncoded cs := by
  induction cs with
  | nil => exact isEncoded_nil
  | cons c cs ih =>
    obtain ⟨hc, hcs⟩ := List.forall_mem_cons.1 h
    exact (IsUnit.char hc).isEncoded_append.2 (ih hcs)

theorem isValue_letter : IsValue ['a'] := by decide

/-- A value on either side of unreserved characters makes one value with them. -/
theorem isValue_join {l : List Char} (h : ∀ c ∈ l, isUnreserved c) :
    IsValue ('a' :: (l ++ ['a'])) := by
  refine ⟨List.cons_ne_nil _ _, isEncoded_of_unreserved fun c hc => ?_⟩
  simp only [List.mem_cons, List.mem_append, List.not_mem_nil, or_false] at hc
  rcases hc with rfl | hc | rfl
  · rfl
  · exact h c hc
  · rfl

theorem exists_fills (tail : List Char) (fs : List Field) :
    ∃ vs cs, Fills IsValue tail fs vs cs := by
  induction fs with
  | nil => exact ⟨[], tail, .nil⟩
  | cons _ _ ih =>
    obtain ⟨vs, _, h⟩ := ih
    exact ⟨['a'] :: vs, _, .cons isValue_letter h⟩

/-- A field is blurred if its literal can be read as a part of the values around it. -/
def Field.IsBlurred (f : Field) : Prop := ∀ c ∈ f.before.text.toList, isUnreserved c

instance : DecidablePred Field.IsBlurred := fun f =>
  List.decidableBAll (isUnreserved ·) f.before.text.toList

theorem exists_two_fills {tail : List Char} {fs : List Field}
    (h : ∃ f ∈ fs.tail, f.IsBlurred) :
    ∃ cs vs ws, vs ≠ ws ∧ Fills IsValue tail fs vs cs ∧ Fills IsValue tail fs ws cs := by
  induction fs with
  | nil =>
    obtain ⟨f, hf, -⟩ := h
    exact absurd hf List.not_mem_nil
  | cons g fs ih =>
    obtain ⟨f, hf, hblurred⟩ := h
    cases fs with
    | nil => exact absurd hf List.not_mem_nil
    | cons f' fs =>
      rcases List.mem_cons.1 hf with rfl | hf
      · -- the literal of `f` stands twice, between three letters
        obtain ⟨vs, cs, hcs⟩ := exists_fills tail fs
        have hjoin := isValue_join hblurred
        have hfirst := Fills.cons (f := g) isValue_letter (.cons (f := f) hjoin hcs)
        have hsecond := Fills.cons (f := g) hjoin (.cons (f := f) isValue_letter hcs)
        refine ⟨_, _, _, ?_, hfirst, by simpa using hsecond⟩
        simp
      · obtain ⟨cs, vs, ws, hne, hvs, hws⟩ := ih ⟨f, hf, hblurred⟩
        exact ⟨_, ['a'] :: vs, ['a'] :: ws, fun heq => hne (List.cons.inj heq).2,
          .cons isValue_letter hvs, .cons isValue_letter hws⟩

/-! ## Templates -/

namespace Template

/-- No candidate can be cut into segments in two ways. -/
def IsUnambiguous (t : Template) : Prop :=
  ∀ (candidate : String) (segments others : List (List Char)),
    IsSplit t.parts segments candidate.toList → IsSplit t.parts others candidate.toList →
    others = segments

/-- Two consecutive variables have nothing between them, or unreserved characters only. -/
def IsBlurred (t : Template) : Prop := ∃ f ∈ t.fields.tail, f.IsBlurred

instance : DecidablePred IsBlurred := fun t =>
  inferInstanceAs (Decidable (∃ f ∈ t.fields.tail, f.IsBlurred))

/-- No literal between two consecutive variables holds the mark of a triple. -/
def IsMarkFree (t : Template) : Prop := ∀ f ∈ t.fields.tail, percentMark ∉ f.before.text.toList

instance : DecidablePred IsMarkFree := fun t =>
  inferInstanceAs (Decidable (∀ f ∈ t.fields.tail, percentMark ∉ f.before.text.toList))

variable {t : Template}

theorem IsSeparated.isUnambiguous (hsep : t.IsSeparated) : t.IsUnambiguous := by
  intro candidate segments others h h'
  have hencoded : ∀ {ss}, IsSplit t.parts ss candidate.toList →
      t.Fills IsEncoded (slotSegments t.parts ss) candidate.toList := fun hss =>
    UriTemplate.Fills.mono (isSplit_iff_fills.2 ⟨_, hss, rfl⟩) fun _ _ hv => hv.2
  exact h'.unique h (Template.Fills.unique hsep (hencoded h') (hencoded h))

/-- If there is one split only, its segments are those that resolving finds. -/
theorem IsUnambiguous.value_resolve (h : t.IsUnambiguous) {candidate : String}
    {segments : List (List Char)} (hsplit : IsSplit t.parts segments candidate.toList) :
    (t.resolve candidate).value = .ofSegments t (slotSegments t.parts segments) := by
  obtain ⟨vs, hvs⟩ := Option.isSome_iff_exists.1 (accepts_iff_isSplit.2 ⟨segments, hsplit⟩)
  obtain ⟨greedy, hgreedy, rfl⟩ := exists_isGreedySplit hvs
  rw [value_resolve_of_some hvs, h candidate segments greedy hsplit hgreedy.1]

theorem IsBlurred.exists_two_splits (h : t.IsBlurred) : ∃ (candidate : String)
    (segments others : List (List Char)), segments ≠ others ∧
      IsSplit t.parts segments candidate.toList ∧ IsSplit t.parts others candidate.toList := by
  obtain ⟨cs, vs, ws, hne, hvs, hws⟩ := @exists_two_fills t.tail.text.toList _ h
  obtain ⟨segments, hsegments, rfl⟩ := isSplit_iff_fills.1 hvs
  obtain ⟨others, hothers, rfl⟩ := isSplit_iff_fills.1 hws
  refine ⟨String.ofList cs, segments, others, fun heq => hne (by rw [heq]), ?_, ?_⟩
  · rwa [String.toList_ofList]
  · rwa [String.toList_ofList]

theorem IsMarkFree.isSeparated_or_isBlurred (h : t.IsMarkFree) : t.IsSeparated ∨ t.IsBlurred := by
  by_cases hblurred : t.IsBlurred
  · exact .inr hblurred
  · refine .inl fun f hf => ?_
    obtain ⟨c, hc, hreserved⟩ : ∃ c ∈ f.before.text.toList, ¬ isUnreserved c = true := by
      simpa [Field.IsBlurred] using fun hfield : f.IsBlurred => hblurred ⟨f, hf, hfield⟩
    have hmark : c ≠ percentMark := fun heq => h f hf (heq ▸ hc)
    exact ⟨c, hc, by simp [isSeparator, hreserved, hmark]⟩

/-- Which templates can be read in one way only. Separators between the variables leave every
candidate at most one split, so whatever split there is, resolving finds it. Two consecutive
variables with nothing or unreserved characters only between them give a URI with two splits.
Without marks in the literals between variables one of the two is the case. -/
theorem unambiguous_iff (t : Template) :
    (t.IsSeparated → ∀ candidate segments, IsSplit t.parts segments candidate.toList →
      (∀ others, IsSplit t.parts others candidate.toList → others = segments) ∧
      (t.resolve candidate).value = .ofSegments t (slotSegments t.parts segments)) ∧
    (t.IsBlurred → ∃ (candidate : String) (segments others : List (List Char)),
      t.accepts candidate = true ∧ segments ≠ others ∧
      IsSplit t.parts segments candidate.toList ∧ IsSplit t.parts others candidate.toList) ∧
    (t.IsMarkFree → (t.IsUnambiguous ↔ t.IsSeparated)) := by
  refine ⟨fun hsep candidate segments h => ?_, fun hblurred => ?_, fun hfree => ⟨fun h => ?_, ?_⟩⟩
  · exact ⟨fun others => hsep.isUnambiguous candidate segments others h,
      hsep.isUnambiguous.value_resolve h⟩
  · obtain ⟨candidate, segments, others, hne, h, h'⟩ := hblurred.exists_two_splits
    exact ⟨candidate, segments, others, accepts_iff_isSplit.2 ⟨segments, h⟩, hne, h, h'⟩
  · rcases hfree.isSeparated_or_isBlurred with hsep | hblurred
    · exact hsep
    · obtain ⟨candidate, segments, others, hne, hsegments, hothers⟩ := hblurred.exists_two_splits
      exact absurd (h candidate others segments hothers hsegments) hne
  · exact IsSeparated.isUnambiguous

/-- `%{from}-{to}%`: the mark stands at the ends only, and a value may hold the hyphen. -/
def hyphened : Template :=
  ⟨[⟨⟨"%", by decide⟩, { name := ⟨"from", by decide⟩ }⟩,
    ⟨⟨"-", by decide⟩, { name := ⟨"to", by decide⟩ }⟩], ⟨"%", by decide⟩⟩

/-- `%{from}%2-:{to}`: a separator among other characters, with a mark before it. -/
def coloned : Template :=
  ⟨[⟨⟨"%", by decide⟩, { name := ⟨"from", by decide⟩ }⟩,
    ⟨⟨"%2-:", by decide⟩, { name := ⟨"to", by decide⟩ }⟩], .empty⟩

theorem unambiguous_iff_hyphened :
    hyphened.IsBlurred ∧ hyphened.IsMarkFree ∧ ¬ hyphened.IsUnambiguous ∧
    (∃ (candidate : String) (segments others : List (List Char)),
      hyphened.accepts candidate = true ∧ segments ≠ others ∧
      IsSplit hyphened.parts segments candidate.toList ∧
      IsSplit hyphened.parts others candidate.toList) ∧
    coloned.IsSeparated ∧
    IsSplit coloned.parts [['%'], ['%', '2', 'f'], ['%', '2', '-', ':'], ['x']] "%%2f%2-:x".toList ∧
    (coloned.resolve "%%2f%2-:x").value.get? "from" = some "/" := by
  have hblurred : hyphened.IsBlurred := by decide
  have hfree : hyphened.IsMarkFree := by decide
  have hsep : coloned.IsSeparated := by decide
  have hsplit : IsSplit coloned.parts [['%'], ['%', '2', 'f'], ['%', '2', '-', ':'], ['x']]
      "%%2f%2-:x".toList :=
    .cons rfl (.cons (show IsValue ['%', '2', 'f'] by decide)
      (.cons rfl (.cons (show IsValue ['x'] by decide) .nil)))
  obtain ⟨-, htwo, hiff⟩ := unambiguous_iff hyphened
  obtain ⟨hone, -, -⟩ := unambiguous_iff coloned
  refine ⟨hblurred, hfree, fun h => ?_, htwo hblurred, hsep, hsplit, ?_⟩
  · exact absurd ((hiff hfree).1 h) (by decide)
  · rw [(hone hsep _ _ hsplit).2]
    decide +kernel

end Template

end UriTemplate
