import UriTemplate.Proofs.Parts
import UriTemplate.Proofs.Percent.Pieces

/-!
# Splits of a candidate

A split cuts a whole candidate into one segment for each part of a template, each covered by its
part (`IsSplit`). Literals cover one segment only, so a split is known by what falls to the
variables; `Fills` says this on the fields of a template, and `isSplit_iff_fills` that it is the
same.

Templates with a separator between any two consecutive variables (`Template.IsSeparated`) have at
most one split (`Template.Fills.unique`): a value holds no separator, so the first one after a value
is the literal's.
-/

namespace UriTemplate

/-- A cutting of a text into one segment for each part, each covered by its part. -/
inductive IsSplit : List Part → List (List Char) → List Char → Prop
  | nil : IsSplit [] [] []
  | cons {p : Part} {ps : List Part} {s : List Char} {ss : List (List Char)} {rest : List Char} :
      p.Covers s → IsSplit ps ss rest → IsSplit (p :: ps) (s :: ss) (s ++ rest)

/-- The segments that fall to variables, in order. -/
def slotSegments (parts : List Part) (segments : List (List Char)) : List (List Char) :=
  (parts.zip segments).filterMap fun q => q.1.slot?.map fun _ => q.2

/-- A text made of the literals of fields, a text that obeys `P` for each variable, and the tail. -/
inductive Fills (P : List Char → Prop) (tail : List Char) :
    List Field → List (List Char) → List Char → Prop
  | nil : Fills P tail [] [] tail
  | cons {f : Field} {fs : List Field} {v : List Char} {vs : List (List Char)} {cs : List Char} :
      P v → Fills P tail fs vs cs →
      Fills P tail (f :: fs) (v :: vs) (f.before.text.toList ++ (v ++ cs))

def Template.Fills (t : Template) (P : List Char → Prop) (vs : List (List Char))
    (cs : List Char) : Prop :=
  UriTemplate.Fills P t.tail.text.toList t.fields vs cs

/-! ## Splits and fillings -/

theorem isSplit_expression {v : Variable} {ps : List Part} {ss : List (List Char)}
    {cs : List Char} : IsSplit (.expression v :: ps) ss cs ↔
      ∃ s ss' rest, ss = s :: ss' ∧ cs = s ++ rest ∧ IsValue s ∧ IsSplit ps ss' rest := by
  refine ⟨fun h => ?_, fun ⟨s, ss', rest, hss, hcs, hs, h⟩ => ?_⟩
  · cases h with
    | cons hs h => exact ⟨_, _, _, rfl, rfl, hs, h⟩
  · rw [hss, hcs]
    exact .cons hs h

def Literal.segments (l : Literal) : List (List Char) :=
  if l.text.isEmpty then [] else [l.text.toList]

theorem Literal.segments_of_empty {l : Literal} (h : l.text = "") : l.segments = [] :=
  if_pos (by rw [h]; rfl)

theorem Literal.segments_of_ne {l : Literal} (h : l.text ≠ "") : l.segments = [l.text.toList] :=
  if_neg (by simpa using h)

theorem isSplit_literal {l : Literal} {ps : List Part} {ss : List (List Char)} {cs : List Char} :
    IsSplit (l.parts ++ ps) ss cs ↔
      ∃ ss' rest, ss = l.segments ++ ss' ∧ cs = l.text.toList ++ rest ∧ IsSplit ps ss' rest := by
  by_cases hl : l.text = ""
  · rw [Literal.parts_of_empty hl, Literal.segments_of_empty hl, hl]
    refine ⟨fun h => ⟨ss, cs, rfl, rfl, h⟩, fun ⟨ss', rest, hss, hcs, h⟩ => ?_⟩
    rw [hss, hcs]
    exact h
  · rw [Literal.parts_of_ne hl, Literal.segments_of_ne hl]
    refine ⟨fun h => ?_, fun ⟨ss', rest, hss, hcs, h⟩ => ?_⟩
    · cases h with
      | cons hs h =>
        cases hs
        exact ⟨_, _, rfl, rfl, h⟩
    · rw [hss, hcs]
      exact .cons rfl h

theorem slotSegments_literal (l : Literal) (ps : List Part) (ss : List (List Char)) :
    slotSegments (l.parts ++ ps) (l.segments ++ ss) = slotSegments ps ss := by
  by_cases hl : l.text = ""
  · rw [Literal.parts_of_empty hl, Literal.segments_of_empty hl, List.nil_append, List.nil_append]
  · rw [Literal.parts_of_ne hl, Literal.segments_of_ne hl]
    rfl

theorem isSplit_tail {l : Literal} {ss : List (List Char)} {cs : List Char} :
    IsSplit l.parts ss cs ↔ ss = l.segments ∧ cs = l.text.toList := by
  rw [← List.append_nil l.parts, isSplit_literal]
  refine ⟨fun ⟨ss', rest, hss, hcs, h⟩ => ?_, fun ⟨hss, hcs⟩ => ?_⟩
  · cases h
    rw [hss, hcs, List.append_nil, List.append_nil]
    exact ⟨rfl, rfl⟩
  · exact ⟨[], [], by rw [hss, List.append_nil], by rw [hcs, List.append_nil], .nil⟩

/-- A split is a filling with values, and the fillings with values are what splits leave to the
variables. -/
theorem isSplit_iff_fills {t : Template} {vs : List (List Char)} {cs : List Char} :
    t.Fills IsValue vs cs ↔ ∃ ss, IsSplit t.parts ss cs ∧ slotSegments t.parts ss = vs := by
  unfold Template.Fills Template.parts
  induction t.fields generalizing vs cs with
  | nil =>
    simp only [List.flatMap_nil, List.nil_append, isSplit_tail]
    have hslots := slotSegments_literal t.tail [] []
    simp only [List.append_nil] at hslots
    refine ⟨fun h => ?_, fun ⟨ss, ⟨hss, hcs⟩, hvs⟩ => ?_⟩
    · cases h
      exact ⟨_, ⟨rfl, rfl⟩, hslots⟩
    · rw [← hvs, hss, hcs, hslots]
      exact .nil
  | cons f fs ih =>
    simp only [List.flatMap_cons, List.append_assoc, List.cons_append, List.nil_append,
      isSplit_literal, isSplit_expression]
    refine ⟨fun h => ?_, fun h => ?_⟩
    · cases h with
      | cons hv h =>
        obtain ⟨ss, hss, rfl⟩ := ih.1 h
        refine ⟨_, ⟨_, _, rfl, rfl, _, ss, _, rfl, rfl, hv, hss⟩, ?_⟩
        rw [slotSegments_literal]
        rfl
    · obtain ⟨_, ⟨_, _, rfl, rfl, v, ss, _, rfl, rfl, hv, hss⟩, rfl⟩ := h
      rw [slotSegments_literal]
      exact .cons hv (ih.2 ⟨ss, hss, rfl⟩)

/-! ## Properties of fillings -/

section
variable {P Q : List Char → Prop} {tail : List Char} {fs : List Field} {vs : List (List Char)}
  {cs : List Char}

theorem Fills.length (h : Fills P tail fs vs cs) : vs.length = fs.length := by
  induction h with
  | nil => rfl
  | cons _ _ ih => simp [ih]

theorem Fills.forall (h : Fills P tail fs vs cs) : ∀ v ∈ vs, P v := by
  induction h with
  | nil => simp
  | cons hv _ ih => simpa using ⟨hv, ih⟩

theorem Fills.mono (h : Fills P tail fs vs cs) (hq : ∀ v ∈ vs, P v → Q v) :
    Fills Q tail fs vs cs := by
  induction h with
  | nil => exact .nil
  | cons hv _ ih =>
    exact .cons (hq _ List.mem_cons_self hv) (ih fun v hm => hq v (List.mem_cons_of_mem _ hm))

end

/-! ## Separators -/

/-- A character that no value holds. -/
def isSeparator (c : Char) : Bool := !isUnreserved c && c != percentMark

/-- Every literal between two consecutive variables holds a separator; in particular no two
variables are adjacent. -/
def Template.IsSeparated (t : Template) : Prop :=
  ∀ f ∈ t.fields.tail, ∃ c ∈ f.before.text.toList, isSeparator c

instance : DecidablePred Template.IsSeparated := fun t =>
  have (f : Field) : Decidable (∃ c ∈ f.before.text.toList, isSeparator c) :=
    List.decidableBEx (isSeparator ·) _
  inferInstanceAs (Decidable (∀ f ∈ t.fields.tail, ∃ c ∈ f.before.text.toList, isSeparator c))

theorem IsEncoded.not_isSeparator {v : List Char} (h : IsEncoded v) :
    ∀ c ∈ v, (!isSeparator c) = true := by
  intro c hc
  rcases h.mem c hc with hu | rfl
  · simp [isSeparator, hu]
  · decide

theorem takeWhile_append_of_exists {p : Char → Bool} {l : List Char} (h : ∃ c ∈ l, p c = false)
    (r : List Char) : (l ++ r).takeWhile p = l.takeWhile p := by
  induction l with
  | nil => simp at h
  | cons c l ih =>
    cases hc : p c with
    | false => simp [List.takeWhile, hc]
    | true =>
      have hl : ∃ c ∈ l, p c = false := by simpa [hc] using h
      simp [List.takeWhile, hc, ih hl]

/-- Encoded text before a literal with a separator ends where the literal is met. -/
theorem append_unique_of_separator {v v' l r r' : List Char} (hv : IsEncoded v)
    (hv' : IsEncoded v') (hl : ∃ c ∈ l, isSeparator c) (heq : v ++ (l ++ r) = v' ++ (l ++ r')) :
    v = v' ∧ r = r' := by
  have hrun : ∀ r, (l ++ r).takeWhile (!isSeparator ·) = l.takeWhile (!isSeparator ·) :=
    takeWhile_append_of_exists (by simpa using hl)
  have hfront := congrArg (List.takeWhile (!isSeparator ·)) heq
  rw [List.takeWhile_append_of_pos hv.not_isSeparator,
    List.takeWhile_append_of_pos hv'.not_isSeparator, hrun, hrun] at hfront
  obtain rfl := List.append_cancel_right hfront
  exact ⟨rfl, by simpa using heq⟩

/-- With a separator before each field there is one way to fill what follows an encoded text. -/
theorem Fills.unique_of_separators {tail : List Char} {fs : List Field}
    {v v' cs cs' : List Char} {vs vs' : List (List Char)}
    (hsep : ∀ f ∈ fs, ∃ c ∈ f.before.text.toList, isSeparator c)
    (hv : IsEncoded v) (hv' : IsEncoded v') (h : Fills IsEncoded tail fs vs cs)
    (h' : Fills IsEncoded tail fs vs' cs') (heq : v ++ cs = v' ++ cs') : v = v' ∧ vs = vs' := by
  induction h generalizing v v' vs' cs' with
  | nil =>
    cases h'
    exact ⟨List.append_cancel_right heq, rfl⟩
  | cons hw _ ih =>
    cases h' with
    | cons hw' h' =>
      obtain ⟨rfl, hrest⟩ :=
        append_unique_of_separator hv hv' (hsep _ List.mem_cons_self) heq
      obtain ⟨rfl, rfl⟩ := ih (fun f hf => hsep f (List.mem_cons_of_mem _ hf)) hw hw' h' hrest
      exact ⟨rfl, rfl⟩

theorem Template.Fills.unique {t : Template} (hsep : t.IsSeparated) {vs vs' : List (List Char)}
    {cs : List Char} (h : t.Fills IsEncoded vs cs) (h' : t.Fills IsEncoded vs' cs) : vs = vs' := by
  unfold Template.Fills at h h'
  unfold IsSeparated at hsep
  generalize t.fields = fs at h h' hsep
  generalize hcs : cs = cs' at h'
  cases h with
  | nil =>
    cases h'
    rfl
  | cons hv h =>
    cases h' with
    | cons hv' h' =>
      obtain ⟨rfl, rfl⟩ :=
        UriTemplate.Fills.unique_of_separators hsep hv hv' h h' (List.append_cancel_left hcs)
      rfl

end UriTemplate
