import Mathlib.Data.List.Infix
import UriTemplate.Proofs.Matching.Splits
import UriTemplate.Proofs.Matching.Values

/-!
# The matcher takes the greedy split

`Template.segments?_eq_some`: the segments that the matcher takes are those of the split whose
lengths, read from the left, are lexicographically greatest. `Template.segments?_eq_none_iff`: it
finds none only if there is no split.

The invariant of its pass over the fields is `Reached`: each reading reads a beginning of the
candidate, the readings stand in the order of their places and of preference at once, and every way
to read a beginning is at most as good as the reading that ends there. A literal keeps it
(`Reached.literal`), and so does a value (`Reached.valueEach`). The point there is a value that goes
beyond the start of an earlier reading: what is left of it from that start is a value too
(`IsEncoded.suffix`), so the earlier reading, which is preferred, has reached its end.
-/

namespace UriTemplate

/-! ## Preference -/

/-- The first list has smaller lengths, read from the left. -/
def Shorter (ws vs : List (List Char)) : Prop :=
  List.Lex (· < ·) (ws.map List.length) (vs.map List.length)

def AtMost (ws vs : List (List Char)) : Prop := ws = vs ∨ Shorter ws vs

theorem Shorter.trans {us vs ws : List (List Char)} (h : Shorter us vs) (h' : Shorter vs ws) :
    Shorter us ws := List.lex_trans Nat.lt_trans h h'

theorem Shorter.irrefl (vs : List (List Char)) : ¬ Shorter vs vs :=
  List.lex_irrefl Nat.lt_irrefl _

theorem AtMost.trans_shorter {us vs ws : List (List Char)} (h : AtMost us vs)
    (h' : Shorter vs ws) : Shorter us ws := by
  rcases h with rfl | h
  · exact h'
  · exact h.trans h'

/-- Among lists of one length the first difference decides, whatever follows. -/
theorem Shorter.append {ws vs : List (List Char)} (h : Shorter ws vs)
    (hlen : ws.length = vs.length) (us us' : List (List Char)) :
    Shorter (ws ++ us) (vs ++ us') := by
  induction ws generalizing vs with
  | nil =>
    rw [List.eq_nil_of_length_eq_zero hlen.symm] at h
    exact absurd h (Shorter.irrefl [])
  | cons w ws ih =>
    rcases vs with _ | ⟨v, vs⟩
    · simp at hlen
    rcases List.cons_lex_cons_iff.1 h with hlt | ⟨heq, hrest⟩
    · exact .rel hlt
    · have := ih hrest (by simpa using hlen)
      exact List.cons_lex_cons_iff.2 (.inr ⟨heq, this⟩)

theorem Shorter.last (vs : List (List Char)) {w v : List Char} (h : w.length < v.length) :
    Shorter (vs ++ [w]) (vs ++ [v]) := by
  induction vs with
  | nil => exact .rel h
  | cons u vs ih => exact .cons ih

/-! ## Fillings from the right -/

section
variable {P : List Char → Prop} {fs : List Field} {vs : List (List Char)} {cs : List Char}

theorem fills_tail {tail : List Char} :
    Fills P tail fs vs cs ↔ ∃ x, cs = x ++ tail ∧ Fills P [] fs vs x := by
  induction fs generalizing vs cs with
  | nil =>
    refine ⟨fun h => ?_, fun ⟨x, hcs, h⟩ => ?_⟩
    · cases h
      exact ⟨[], rfl, .nil⟩
    · cases h
      exact hcs ▸ .nil
  | cons f fs ih =>
    refine ⟨fun h => ?_, fun ⟨x, hcs, h⟩ => ?_⟩
    · cases h with
      | cons hv h =>
        obtain ⟨x, rfl, hx⟩ := ih.1 h
        exact ⟨_, by simp, .cons hv hx⟩
    · cases h with
      | cons hv h =>
        have hfills := Fills.cons (f := f) hv (ih.2 ⟨_, rfl, h⟩)
        simpa [hcs] using hfills

theorem fills_snoc {f : Field} : Fills P [] (fs ++ [f]) vs cs ↔ ∃ vs' v x, vs = vs' ++ [v] ∧
    cs = (x ++ f.before.text.toList) ++ v ∧ P v ∧ Fills P [] fs vs' x := by
  induction fs generalizing vs cs with
  | nil =>
    refine ⟨fun h => ?_, fun ⟨vs', v, x, hvs, hcs, hv, h⟩ => ?_⟩
    · cases h with
      | cons hv h =>
        cases h
        exact ⟨[], _, [], rfl, by simp, hv, .nil⟩
    · cases h
      have hfills := Fills.cons (f := f) hv (@Fills.nil P [])
      simpa [hvs, hcs] using hfills
  | cons g fs ih =>
    refine ⟨fun h => ?_, fun ⟨vs', v, x, hvs, hcs, hv, h⟩ => ?_⟩
    · cases h with
      | cons hw h =>
        obtain ⟨vs', v, x, rfl, rfl, hv, h⟩ := ih.1 h
        exact ⟨_ :: vs', v, _, rfl, by simp, hv, .cons hw h⟩
    · cases h with
      | cons hw h =>
        have hfills := Fills.cons (f := g) hw (ih.2 ⟨_, v, _, rfl, rfl, hv, h⟩)
        simpa [hvs, hcs] using hfills

end

/-! ## The invariant -/

def Reading.segments (r : Reading) : List (List Char) := (r.taken.map List.reverse).reverse

/-- Readings of beginnings of `cs` in the ways of `L`, by preference, with a best one for every
place that can be reached. -/
structure Reached (cs : List Char) (L : List (List Char) → List Char → Prop)
    (rs : List Reading) : Prop where
  sound : ∀ r ∈ rs, ∃ x, cs = x ++ r.rest ∧ r.place = x.length ∧ L r.segments x
  ordered : rs.Pairwise fun r s => s.place < r.place ∧ Shorter s.segments r.segments
  complete : ∀ vs x rest, cs = x ++ rest → L vs x →
    ∃ r ∈ rs, r.place = x.length ∧ AtMost vs r.segments

section
variable {cs : List Char} {L : List (List Char) → List Char → Prop} {rs : List Reading}

theorem eq_of_place_eq {r s : Reading} : ∀ {rs : List Reading},
    (rs.Pairwise fun r s => s.place < r.place) → r ∈ rs → s ∈ rs → r.place = s.place → r = s
  | [], _, hr, _, _ => absurd hr List.not_mem_nil
  | q :: rs, hord, hr, hs, hplace => by
    obtain ⟨hfirst, hord⟩ := List.pairwise_cons.1 hord
    rcases List.mem_cons.1 hr with rfl | hr' <;> rcases List.mem_cons.1 hs with rfl | hs'
    · rfl
    · exact absurd (hfirst s hs') (by omega)
    · exact absurd (hfirst r hr') (by omega)
    · exact eq_of_place_eq hord hr' hs' hplace

theorem reached_start (cs : List Char) (P : List Char → Prop) :
    Reached cs (Fills P [] []) [{ rest := cs }] where
  sound r hr := by
    rw [List.mem_singleton] at hr
    subst hr
    exact ⟨[], rfl, rfl, .nil⟩
  ordered := by simp
  complete vs x rest _ h := by
    cases h
    exact ⟨_, List.mem_singleton_self _, rfl, .inl rfl⟩

/-! ## Literals -/

theorem literal_eq_some {r s : Reading} {l : List Char} : r.literal l = some s ↔
    ∃ rest, r.rest = l ++ rest ∧ s = { r with place := r.place + l.length, rest } := by
  simp only [Reading.literal, Option.map_eq_some_iff, List.isPrefixOf?_eq_some_iff_append_eq,
    @eq_comm _ r.rest, @eq_comm _ s]

theorem Reached.literal (h : Reached cs L rs) (l : List Char) :
    Reached cs (fun vs y => ∃ x, y = x ++ l ∧ L vs x) (rs.filterMap (·.literal l)) where
  sound s hs := by
    obtain ⟨r, hr, hlit⟩ := List.mem_filterMap.1 hs
    obtain ⟨rest, hrest, rfl⟩ := literal_eq_some.1 hlit
    obtain ⟨x, rfl, hplace, hL⟩ := h.sound r hr
    exact ⟨x ++ l, by simp [hrest], by simp [hplace], x, rfl, hL⟩
  ordered := by
    refine List.Pairwise.filterMap _ (fun r r' hrr s hs s' hs' => ?_) h.ordered
    obtain ⟨_, -, rfl⟩ := literal_eq_some.1 hs
    obtain ⟨_, -, rfl⟩ := literal_eq_some.1 hs'
    exact ⟨Nat.add_lt_add_right hrr.1 _, hrr.2⟩
  complete := by
    intro vs _ rest hcs hvs
    obtain ⟨x, rfl, hL⟩ := hvs
    rw [List.append_assoc] at hcs
    obtain ⟨r, hr, hplace, hbest⟩ := h.complete vs x _ hcs hL
    obtain ⟨x', hx', hplace', -⟩ := h.sound r hr
    obtain ⟨rfl, hrest⟩ := List.append_inj (hx'.symm.trans hcs) (by omega)
    exact ⟨{ r with place := r.place + l.length, rest },
      List.mem_filterMap.2 ⟨r, hr, literal_eq_some.2 ⟨rest, hrest, rfl⟩⟩, by simp [hplace], hbest⟩

/-! ## Values -/

theorem segments_take (r : Reading) (q : List Char × List Char) :
    (r.take q).segments = r.segments ++ [q.1] := by
  simp [Reading.take, Reading.segments]

theorem mem_values {r s : Reading} {limit : Nat} : s ∈ r.values limit ↔
    ∃ v rest, r.rest = v ++ rest ∧ IsValue v ∧ v.length ≤ limit - r.place ∧
      s = r.take (v, rest) := by
  simp only [Reading.values_eq, List.mem_map, List.mem_filter, decide_eq_true_eq, Prod.exists,
    mem_valueCuts, and_assoc, @eq_comm _ _ s]

theorem valueEach_cons (n : Nat) (r : Reading) (rs : List Reading) :
    Reading.valueEach n (r :: rs) = r.values n ++ Reading.valueEach r.place rs := rfl

theorem mem_valueEach {s : Reading} : ∀ {n : Nat} {rs : List Reading},
    (rs.Pairwise fun r s => s.place < r.place) → (∀ r ∈ rs, r.place ≤ n) →
    s ∈ Reading.valueEach n rs →
    s.place ≤ n ∧ ∃ r ∈ rs, ∃ v rest, r.rest = v ++ rest ∧ IsValue v ∧ s = r.take (v, rest)
  | n, [], _, _, h => by simp [Reading.valueEach] at h
  | n, r :: rs, hord, hle, h => by
    have hr := hle r List.mem_cons_self
    rw [valueEach_cons, List.mem_append] at h
    rcases h with h | h
    · obtain ⟨v, rest, hrest, hv, hlen, rfl⟩ := mem_values.1 h
      have hplace : (r.take (v, rest)).place = r.place + v.length := rfl
      exact ⟨by omega, r, List.mem_cons_self, v, rest, hrest, hv, rfl⟩
    · obtain ⟨hfirst, hord⟩ := List.pairwise_cons.1 hord
      obtain ⟨hs, r', hr', hval⟩ := mem_valueEach hord (fun r' hr' => Nat.le_of_lt (hfirst r' hr')) h
      exact ⟨Nat.le_trans hs hr, r', List.mem_cons_of_mem _ hr', hval⟩

/-- A pass keeps the order: what one reading adds stands beyond all that later ones add. -/
theorem valueEach_pairwise {k : Nat} : ∀ {n : Nat} {rs : List Reading},
    (rs.Pairwise fun r s => s.place < r.place ∧ Shorter s.segments r.segments) →
    (∀ r ∈ rs, r.segments.length = k) →
    (Reading.valueEach n rs).Pairwise fun r s => s.place < r.place ∧ Shorter s.segments r.segments
  | n, [], _, _ => by simp [Reading.valueEach]
  | n, r :: rs, hord, hlen => by
    obtain ⟨hfirst, hord⟩ := List.pairwise_cons.1 hord
    have hlen' : ∀ s ∈ rs, s.segments.length = k := fun s hs => hlen s (List.mem_cons_of_mem _ hs)
    rw [valueEach_cons, List.pairwise_append]
    refine ⟨?_, valueEach_pairwise hord hlen', ?_⟩
    · rw [Reading.values_eq, List.pairwise_map]
      refine ((valueCuts_pairwise r.rest).filter _).imp fun {q q'} hq => ?_
      rw [segments_take, segments_take]
      exact ⟨Nat.add_lt_add_left hq _, Shorter.last _ hq⟩
    · intro s hs s' hs'
      obtain ⟨v, rest, -, hv, -, rfl⟩ := mem_values.1 hs
      obtain ⟨hplace, r', hr', v', rest', -, -, rfl⟩ :=
        mem_valueEach (hord.imp And.left) (fun r' hr' => Nat.le_of_lt (hfirst r' hr').1) hs'
      have hpos := List.length_pos_iff.2 hv.1
      have hstart : (r.take (v, rest)).place = r.place + v.length := rfl
      refine ⟨by omega, ?_⟩
      rw [segments_take, segments_take]
      exact (hfirst r' hr').2.append
        ((hlen' r' hr').trans (hlen r List.mem_cons_self).symm) _ _

/-- Whatever value goes on from a reading, the pass ends a reading there, at least as preferred. -/
theorem valueEach_complete {k : Nat} {x v rest : List Char} (hv : IsValue v) {r : Reading} :
    ∀ {n : Nat} {rs : List Reading},
    (∀ r ∈ rs, ∃ y, x ++ (v ++ rest) = y ++ r.rest ∧ r.place = y.length) →
    (rs.Pairwise fun r s => s.place < r.place ∧ Shorter s.segments r.segments) →
    (∀ r ∈ rs, r.segments.length = k) → x.length + v.length ≤ n → r ∈ rs → r.place = x.length →
    ∃ s ∈ Reading.valueEach n rs, s.place = x.length + v.length ∧
      AtMost (r.segments ++ [v]) s.segments
  | n, r₁ :: rs, hsound, hord, hlen, hn, hr, hplace => by
    obtain ⟨hfirst, hord'⟩ := List.pairwise_cons.1 hord
    obtain ⟨y, hy, hplace₁⟩ := hsound r₁ List.mem_cons_self
    rcases List.mem_cons.1 hr with rfl | hr'
    · obtain ⟨rfl, hrest⟩ := List.append_inj hy (by omega)
      refine ⟨r.take (v, rest), ?_, by simp [Reading.take, hplace], ?_⟩
      · rw [valueEach_cons, List.mem_append]
        exact .inl (mem_values.2 ⟨v, rest, hrest.symm, hv, by omega, rfl⟩)
      · rw [segments_take]
        exact .inl rfl
    obtain ⟨hlt, hshort⟩ := hfirst r hr'
    by_cases hreach : x.length + v.length ≤ r₁.place
    · obtain ⟨s, hs, hs'⟩ := valueEach_complete hv
        (fun r hr => hsound r (List.mem_cons_of_mem _ hr)) hord'
        (fun r hr => hlen r (List.mem_cons_of_mem _ hr)) hreach hr' hplace
      exact ⟨s, by rw [valueEach_cons]; exact List.mem_append_right _ hs, hs'⟩
    · -- the value goes beyond the start of `r₁`, which has its own way to the same end
      obtain ⟨w, rfl⟩ : ∃ w, y = x ++ w := by
        have hprefix := List.prefix_of_prefix_length_le (List.prefix_append x (v ++ rest))
          (hy ▸ List.prefix_append y r₁.rest) (by omega)
        exact hprefix.imp fun _ => Eq.symm
      rw [List.append_assoc, List.append_cancel_left_eq] at hy
      rw [List.length_append] at hplace₁
      obtain ⟨u, rfl⟩ : ∃ u, v = w ++ u := by
        have hprefix := List.prefix_of_prefix_length_le (hy ▸ List.prefix_append w r₁.rest)
          (List.prefix_append v rest) (by omega)
        exact hprefix.imp fun _ => Eq.symm
      rw [List.append_assoc, List.append_cancel_left_eq] at hy
      rw [List.length_append] at hn hreach
      have hu : IsValue u := by
        refine ⟨?_, hv.2.suffix⟩
        intro hnil
        exact hreach (by simp [hplace₁, hnil])
      refine ⟨r₁.take (u, rest), ?_, by simp [Reading.take, hplace₁, Nat.add_assoc], .inr ?_⟩
      · rw [valueEach_cons, List.mem_append]
        exact .inl (mem_values.2 ⟨u, rest, hy.symm, hu, by omega, rfl⟩)
      · rw [segments_take]
        exact hshort.append ((hlen r hr).trans (hlen r₁ List.mem_cons_self).symm) _ _

theorem Reached.valueEach (h : Reached cs L rs) {k : Nat}
    (hk : ∀ vs x, L vs x → vs.length = k) :
    Reached cs (fun vs y => ∃ vs' v x, vs = vs' ++ [v] ∧ y = x ++ v ∧ IsValue v ∧ L vs' x)
      (Reading.valueEach cs.length rs) where
  sound s hs := by
    have hle : ∀ r ∈ rs, r.place ≤ cs.length := by
      intro r hr
      obtain ⟨x, rfl, hplace, -⟩ := h.sound r hr
      simp [hplace]
    obtain ⟨-, r, hr, v, rest, hrest, hv, rfl⟩ := mem_valueEach (h.ordered.imp And.left) hle hs
    obtain ⟨x, rfl, hplace, hL⟩ := h.sound r hr
    exact ⟨x ++ v, by simp [hrest, Reading.take], by simp [Reading.take, hplace], _, v, x,
      segments_take _ _, rfl, hv, hL⟩
  ordered := by
    refine valueEach_pairwise (k := k) h.ordered fun r hr => ?_
    obtain ⟨x, -, -, hL⟩ := h.sound r hr
    exact hk _ _ hL
  complete := by
    intro _ _ rest hcs hvs
    obtain ⟨vs, v, x, rfl, rfl, hv, hL⟩ := hvs
    rw [List.append_assoc] at hcs
    obtain ⟨r, hr, hplace, hbest⟩ := h.complete vs x _ hcs hL
    have hsound : ∀ r ∈ rs, ∃ y, x ++ (v ++ rest) = y ++ r.rest ∧ r.place = y.length := by
      intro r hr
      obtain ⟨y, hy, hplace, -⟩ := h.sound r hr
      exact ⟨y, hcs.symm.trans hy, hplace⟩
    have hlen : ∀ r ∈ rs, r.segments.length = k := by
      intro r hr
      obtain ⟨y, -, -, hL⟩ := h.sound r hr
      exact hk _ _ hL
    obtain ⟨s, hs, hplace', hbest'⟩ := valueEach_complete (n := cs.length) hv hsound h.ordered hlen
      (by rw [hcs, List.length_append, List.length_append]; omega) hr hplace
    refine ⟨s, hs, by simpa using hplace', ?_⟩
    rcases hbest with rfl | hbest
    · exact hbest'
    · have hshort := hbest.append ((hk _ _ hL).trans (hlen r hr).symm) [v] [v]
      rcases hbest' with heq | hbest'
      · exact .inr (heq ▸ hshort)
      · exact .inr (hshort.trans hbest')

/-! ## A whole template -/

theorem Reached.field {fs : List Field}
    (h : Reached cs (Fills IsValue [] fs) rs) (f : Field) :
    Reached cs (Fills IsValue [] (fs ++ [f])) (Reading.field cs.length rs f) := by
  have hstep := (h.literal f.before.text.toList).valueEach (k := fs.length)
    fun _ _ ⟨_, _, hx⟩ => hx.length
  have hfills : Fills IsValue [] (fs ++ [f]) = fun vs y => ∃ vs' v x', vs = vs' ++ [v] ∧
      y = x' ++ v ∧ IsValue v ∧ ∃ x, x' = x ++ f.before.text.toList ∧ Fills IsValue [] fs vs' x := by
    funext vs y
    rw [fills_snoc, eq_iff_iff]
    exact ⟨fun ⟨vs', v, x, hvs, hy, hv, hx⟩ => ⟨vs', v, _, hvs, hy, hv, x, rfl, hx⟩,
      fun ⟨vs', v, _, hvs, hy, hv, x, hx', hx⟩ => ⟨vs', v, x, hvs, hx' ▸ hy, hv, hx⟩⟩
  rw [hfills]
  exact hstep

theorem Reached.fields {done : List Field} (h : Reached cs (Fills IsValue [] done) rs)
    (fs : List Field) :
    Reached cs (Fills IsValue [] (done ++ fs)) (fs.foldl (Reading.field cs.length) rs) := by
  induction fs generalizing done rs with
  | nil => simpa using h
  | cons f fs ih =>
    rw [List.append_cons]
    exact ih (h.field f)

end

theorem reached_template (t : Template) (cs : List Char) :
    Reached cs (fun vs y => ∃ x, y = x ++ t.tail.text.toList ∧ Fills IsValue [] t.fields vs x)
      ((t.fields.foldl (Reading.field cs.length) [{ rest := cs }]).filterMap
        (·.literal t.tail.text.toList)) := by
  have h := (reached_start cs IsValue).fields t.fields
  rw [List.nil_append] at h
  exact h.literal _

namespace Template

theorem fills_iff {t : Template} {P : List Char → Prop} {vs : List (List Char)} {cs : List Char} :
    t.Fills P vs cs ↔
      ∃ x, cs = x ++ t.tail.text.toList ∧ UriTemplate.Fills P [] t.fields vs x := fills_tail

/-- The segments taken are a filling with values, and every other filling is less preferred. -/
theorem segments?_eq_some {t : Template} {cs : List Char} {vs : List (List Char)}
    (h : t.segments? cs = some vs) :
    t.Fills IsValue vs cs ∧ ∀ ws, t.Fills IsValue ws cs → AtMost ws vs := by
  obtain ⟨r, hfind, rfl⟩ := Option.map_eq_some_iff.1 h
  have hreached := reached_template t cs
  have hr := List.mem_of_find?_eq_some hfind
  have hrest : r.rest = [] := by simpa using List.find?_some hfind
  obtain ⟨y, hy, hplace, x, rfl, hx⟩ := hreached.sound r hr
  rw [hrest, List.append_nil] at hy
  refine ⟨fills_iff.2 ⟨x, hy, hx⟩, fun ws hws => ?_⟩
  obtain ⟨x', hx', hws'⟩ := fills_iff.1 hws
  obtain ⟨s, hs, hplace', hbest⟩ :=
    hreached.complete ws cs [] (List.append_nil cs).symm ⟨x', hx', hws'⟩
  -- both readings end with the candidate, and no two readings end at one place
  have hsame : s.place = r.place := by rw [hplace', hplace, hy]
  have heq := eq_of_place_eq (hreached.ordered.imp And.left) hs hr hsame
  exact heq ▸ hbest

theorem segments?_eq_none_iff {t : Template} {cs : List Char} :
    t.segments? cs = none ↔ ¬ ∃ vs, t.Fills IsValue vs cs := by
  refine ⟨fun h ⟨vs, hvs⟩ => ?_, fun h => ?_⟩
  · obtain ⟨x, hx, hvs⟩ := fills_iff.1 hvs
    have hreached := reached_template t cs
    obtain ⟨r, hr, hplace, -⟩ := hreached.complete vs cs [] (List.append_nil cs).symm ⟨x, hx, hvs⟩
    obtain ⟨y, hy, hplace', -⟩ := hreached.sound r hr
    have hrest := (List.append_inj (hy.symm.trans (List.append_nil cs).symm) (by omega)).2
    rw [segments?, Option.map_eq_none_iff, List.find?_eq_none] at h
    exact h r hr (by simp [hrest])
  · cases hs : t.segments? cs with
    | none => rfl
    | some vs => exact absurd ⟨vs, (segments?_eq_some hs).1⟩ h

end Template

end UriTemplate
