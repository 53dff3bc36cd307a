import UriTemplate.Proofs.Percent.ByteScan
import UriTemplate.Proofs.Regex.Agreement

/-!
# The URIs of a template

A candidate is a URI of a template exactly when it has a split (`Template.accepts_iff_isSplit`). The
matcher, the search for the whole pattern, and the test of one segment at a time are three ways to
decide the same language (`Template.accepts_language`), and so are the three tests of a value: by
pieces, by the fragment of the pattern, and by the scan of its bytes.
-/

namespace UriTemplate
namespace Template

theorem accepts_iff_fills {t : Template} {candidate : String} :
    t.accepts candidate = true ↔ ∃ vs, t.Fills IsValue vs candidate.toList := by
  rw [accepts, Option.isSome_iff_ne_none, Ne, segments?_eq_none_iff, Classical.not_not]

theorem accepts_iff_isSplit {t : Template} {candidate : String} :
    t.accepts candidate = true ↔ ∃ segments, IsSplit t.parts segments candidate.toList := by
  rw [accepts_iff_fills]
  constructor
  · intro ⟨vs, h⟩
    obtain ⟨segments, hsplit, -⟩ := isSplit_iff_fills.1 h
    exact ⟨segments, hsplit⟩
  · intro ⟨segments, hsplit⟩
    exact ⟨_, isSplit_iff_fills.2 ⟨segments, hsplit, rfl⟩⟩

/-- The candidates of a template are the texts that can be cut into segments of its parts, whether
they are matched part by part or by a search for the whole pattern; and the segments of a variable
are the same for the fragment of the pattern and for the scan of the bytes. -/
theorem accepts_language (t : Template) (candidate : String) :
    (t.accepts candidate = true ↔ ∃ segments, IsSplit t.parts segments candidate.toList) ∧
    (∃ program, Regex.read t.pattern = some program ∧
      (program.captures? candidate.toList).isSome = t.accepts candidate) ∧
    (∃ program, Regex.read ("^" ++ Part.valuePattern ++ "$") = some program ∧
      (program.captures? candidate.toList).isSome = Encoded.isValue candidate) ∧
    (Encoded.isValue candidate = true ↔ candidate ≠ "" ∧ ByteScan.fault? candidate = none) := by
  obtain ⟨whole, hwhole, hcaptures⟩ := t.captures_pattern
  obtain ⟨value, hvalue, hmatches⟩ := Regex.captures_valuePattern
  refine ⟨accepts_iff_isSplit, ⟨whole, hwhole, ?_⟩, ⟨value, hvalue, hmatches _⟩, ?_⟩
  · rw [hcaptures, Option.isSome_map, accepts]
  · rw [Encoded.isValue, decide_eq_true_eq, ByteScan.isValue_iff]

end Template
end UriTemplate
