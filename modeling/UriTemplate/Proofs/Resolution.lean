import UriTemplate.Proofs.Matching.Language
import UriTemplate.Proofs.Percent.RoundTrip
import UriTemplate.Resolution

/-!
# Resolutions

What resolving a candidate gives (`Template.resolve_greedy`): an error without values if there is no
split, else the decoded segments of the greedy split, where the last use of a name counts.

`Resolution.getElem?_foldl_insert` is the invariant of binding names one after the other: the last
pair with a name decides, and without one the values before are kept.
-/

namespace UriTemplate

/-! ## Binding names -/

namespace Resolution

def valueOf (segment : List Char) : String := String.ofList (Percent.decodeChars segment)

theorem valueOf_eq : valueOf = fun segment => Percent.decode (String.ofList segment) := by
  funext segment
  rw [valueOf, Percent.decode, String.toList_ofList]

theorem valueOf_ne_empty {segment : List Char} (h : IsValue segment) : valueOf segment ≠ "" := by
  intro hempty
  rw [valueOf, ← String.toList_eq_nil_iff, String.toList_ofList, Percent.decodeChars_eq_nil] at hempty
  exact h.1 hempty

theorem getElem?_foldl_insert (pairs : List (String × List Char)) (name : String) :
    ∀ values : Std.TreeMap String String,
    (pairs.foldl (fun values (name, segment) => values.insert name (valueOf segment)) values)[name]? =
      ((pairs.reverse.lookup name).map valueOf).or values[name]? := by
  induction pairs with
  | nil => exact fun _ => rfl
  | cons pair pairs ih =>
    obtain ⟨n, segment⟩ := pair
    intro values
    rw [List.foldl_cons, ih, List.reverse_cons, List.lookup_append, Std.TreeMap.getElem?_insert]
    cases hlater : pairs.reverse.lookup name with
    | some later => rfl
    | none =>
      by_cases hn : n = name
      · subst hn
        simp
      · have hne : (name == n) = false := by simpa using Ne.symm hn
        simp [List.lookup_cons, hne, hn]

theorem get?_ofSegments (t : Template) (segments : List (List Char)) (name : String) :
    (ofSegments t segments).get? name =
      ((t.names.zip segments).reverse.lookup name).map valueOf := by
  have hfold := getElem?_foldl_insert (t.names.zip segments) name ∅
  rw [Std.TreeMap.getElem?_emptyc, Option.or_none] at hfold
  exact hfold

theorem mem_names {r : Resolution} {name : String} : name ∈ r.names ↔ (r.get? name).isSome := by
  rw [names, Std.TreeMap.mem_keys, Std.TreeMap.mem_iff_isSome_getElem?, get?]

theorem mem_names_ofSegments {t : Template} {segments : List (List Char)}
    (hlen : segments.length = t.names.length) {name : String} :
    name ∈ (ofSegments t segments).names ↔ name ∈ t.names := by
  have hkeys : (t.names.zip segments).map Prod.fst = t.names :=
    List.map_fst_zip (Nat.le_of_eq hlen.symm)
  have hname := List.mem_map (f := Prod.fst) (l := t.names.zip segments) (b := name)
  rw [hkeys] at hname
  rw [mem_names, get?_ofSegments, Option.isSome_map, List.lookup_isSome_iff, hname]
  simp only [List.mem_reverse, beq_iff_eq, @eq_comm _ name]

theorem exists_of_get?_ofSegments {t : Template} {segments : List (List Char)}
    {name value : String} (h : (ofSegments t segments).get? name = some value) :
    ∃ segment ∈ segments, value = valueOf segment := by
  rw [get?_ofSegments, Option.map_eq_some_iff] at h
  obtain ⟨segment, hlookup, rfl⟩ := h
  obtain ⟨before, after, heq, -⟩ := List.lookup_eq_some_iff.1 hlookup
  have hmem : (name, segment) ∈ t.names.zip segments := by
    rw [← List.mem_reverse, heq]
    simp
  exact ⟨segment, (List.of_mem_zip hmem).2, rfl⟩

end Resolution

/-! ## Resolving -/

/-- A split that takes more than any other one for the first variable on which they differ. -/
def IsGreedySplit (parts : List Part) (greedy : List (List Char)) (candidate : List Char) : Prop :=
  IsSplit parts greedy candidate ∧ ∀ other, IsSplit parts other candidate → other ≠ greedy →
    Shorter (slotSegments parts other) (slotSegments parts greedy)

theorem IsSplit.unique {parts : List Part} {ss ss' : List (List Char)} {cs cs' : List Char}
    (h : IsSplit parts ss cs) (h' : IsSplit parts ss' cs')
    (heq : slotSegments parts ss = slotSegments parts ss') : ss = ss' := by
  induction h generalizing ss' cs' with
  | nil =>
    cases h'
    rfl
  | @cons p ps s ss rest hs _ ih =>
    cases h' with
    | @cons _ _ s' ss' rest' hs' h' =>
      cases p with
      | literal text =>
        obtain rfl : s = text.toList := hs
        obtain rfl : s' = text.toList := hs'
        rw [ih h' heq]
      | expression v =>
        obtain ⟨rfl, hrest⟩ := List.cons.inj heq
        rw [ih h' hrest]

namespace Template

theorem length_names (t : Template) : t.names.length = t.fields.length := by
  rw [names, slots, List.length_map, List.length_map]

theorem value_resolve_of_some {t : Template} {candidate : String} {segments : List (List Char)}
    (h : t.segments? candidate.toList = some segments) :
    (t.resolve candidate).value = .ofSegments t segments := by
  rw [resolve, h]
  rfl

theorem value_resolve_of_none {t : Template} {candidate : String}
    (h : t.segments? candidate.toList = none) :
    (t.resolve candidate).value = { template := t, status := .error } := by
  rw [resolve, h]
  rfl

theorem isResolved_resolve (t : Template) (candidate : String) :
    (t.resolve candidate).value.isResolved = t.accepts candidate := by
  rw [accepts]
  cases h : t.segments? candidate.toList with
  | none =>
    rw [value_resolve_of_none h]
    rfl
  | some segments =>
    rw [value_resolve_of_some h]
    rfl

theorem exists_isGreedySplit {t : Template} {cs : List Char} {vs : List (List Char)}
    (h : t.segments? cs = some vs) :
    ∃ greedy, IsGreedySplit t.parts greedy cs ∧ slotSegments t.parts greedy = vs := by
  obtain ⟨hfills, hbest⟩ := segments?_eq_some h
  obtain ⟨greedy, hgreedy, rfl⟩ := isSplit_iff_fills.1 hfills
  refine ⟨greedy, ⟨hgreedy, fun other hother hne => ?_⟩, rfl⟩
  rcases hbest _ (isSplit_iff_fills.2 ⟨other, hother, rfl⟩) with heq | hshorter
  · exact absurd (hother.unique hgreedy heq) hne
  · exact hshorter

/-- Resolving never leaves a resolution open. A candidate without a split gives an error and no
values. A candidate with one resolves to the greedy split, which the search for the pattern captures
too. Each name has the decoded segment of its last variable, which is never empty. -/
theorem resolve_greedy (t : Template) (candidate : String) :
    (t.resolve candidate).value.isResolved = t.accepts candidate ∧
    (t.resolve candidate).value.status ≠ .unresolved ∧
    ((¬ ∃ segments, IsSplit t.parts segments candidate.toList) →
      (t.resolve candidate).value.status = .error ∧ (t.resolve candidate).value.toList = []) ∧
    ((∃ segments, IsSplit t.parts segments candidate.toList) →
      (t.resolve candidate).value.status = .resolved ∧
      ∃ greedy, IsGreedySplit t.parts greedy candidate.toList ∧
        (∃ program, Regex.read t.pattern = some program ∧
          program.captures? candidate.toList = some ((slotSegments t.parts greedy).map some)) ∧
        (∀ name, name ∈ (t.resolve candidate).value.names ↔ name ∈ t.names) ∧
        (∀ name, (t.resolve candidate).value.get? name =
          ((t.names.zip (slotSegments t.parts greedy)).reverse.lookup name).map
            fun segment => Percent.decode (String.ofList segment)) ∧
        ∀ name value, (t.resolve candidate).value.get? name = some value → value ≠ "") := by
  refine ⟨t.isResolved_resolve candidate, ?_⟩
  cases hsegments : t.segments? candidate.toList with
  | none =>
    have hsplit : ¬ ∃ segments, IsSplit t.parts segments candidate.toList := by
      rw [← accepts_iff_isSplit, accepts, hsegments]
      exact Bool.false_ne_true
    rw [value_resolve_of_none hsegments]
    exact ⟨Status.noConfusion, fun _ => ⟨rfl, rfl⟩, fun h => absurd h hsplit⟩
  | some vs =>
    obtain ⟨greedy, hgreedy, rfl⟩ := exists_isGreedySplit hsegments
    obtain ⟨program, hread, hcaptures⟩ := t.captures_pattern
    have hfills := isSplit_iff_fills.2 ⟨greedy, hgreedy.1, rfl⟩
    have hlen : (slotSegments t.parts greedy).length = t.names.length := by
      rw [hfills.length, t.length_names]
    rw [value_resolve_of_some hsegments]
    refine ⟨Status.noConfusion, fun h => absurd ⟨greedy, hgreedy.1⟩ h, fun _ =>
      ⟨rfl, greedy, hgreedy, ⟨program, hread, ?_⟩, fun name => ?_, fun name => ?_,
        fun name value h => ?_⟩⟩
    · rw [hcaptures, hsegments, Option.map_some]
    · exact Resolution.mem_names_ofSegments hlen
    · rw [Resolution.get?_ofSegments, Resolution.valueOf_eq]
    · obtain ⟨segment, hmem, rfl⟩ := Resolution.exists_of_get?_ofSegments h
      exact Resolution.valueOf_ne_empty (hfills.forall segment hmem)

/-- `{a}{b}`, where nothing shows the end of the first value. -/
def pair : Template :=
  ⟨[⟨.empty, { name := ⟨"a", by decide⟩ }⟩, ⟨.empty, { name := ⟨"b", by decide⟩ }⟩], .empty⟩

theorem resolve_greedy_pair :
    IsSplit pair.parts [['x'], ['%', '4', '1', 'y']] "x%41y".toList ∧
    (pair.resolve "x%41y").value.status = .resolved ∧
    (∃ greedy, IsGreedySplit pair.parts greedy "x%41y".toList) ∧
    "b" ∈ (pair.resolve "x%41y").value.names := by
  have hsplit : IsSplit pair.parts [['x'], ['%', '4', '1', 'y']] "x%41y".toList :=
    .cons (show IsValue ['x'] by decide) (.cons (show IsValue ['%', '4', '1', 'y'] by decide) .nil)
  obtain ⟨hstatus, greedy, hgreedy, -, hnames, -⟩ := (resolve_greedy pair "x%41y").2.2.2 ⟨_, hsplit⟩
  exact ⟨hsplit, hstatus, ⟨greedy, hgreedy⟩, (hnames "b").2 (by decide)⟩

end Template

end UriTemplate
