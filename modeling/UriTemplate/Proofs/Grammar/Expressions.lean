import UriTemplate.Datum
import UriTemplate.Proofs.Types

/-!
# Expressions

What a variable is written as, and what is read back from it (`Variable.parse_grammar`): reading
accepts what the rule for variables derives, and gives back all but the type.

Every variable comes from reading a text or a datum, from the texts of a name and a default, or from
adding a type (`Variable.isObtained`). So what holds of all variables holds of what callers can
have, and of nothing else.
-/

namespace UriTemplate
namespace Variable

/-! ## Where variables come from -/

/-- A caller can have the variable. -/
inductive IsObtained : Variable → Prop
  | parsed {s : String} {v : Variable} : parse s = .ok v → IsObtained v
  | named {name : String} {v : Variable} : ofTexts? name none = .ok v → IsObtained v
  | defaulted {name default : String} {v : Variable} :
      ofTexts? name (some default) = .ok v → IsObtained v
  | received {datum : Datum} {v : Variable} : ofDatum datum = .ok v → IsObtained v
  | typed {v : Variable} (type : Name) : IsObtained v → IsObtained (v.withType type)

theorem isObtained_untyped (v : Variable) : v.untyped.IsObtained := by
  have htexts : ofTexts? v.name.text (v.default.map Encoded.text) = .ok v.untyped :=
    ofTexts?_of_eq rfl rfl rfl
  cases hdefault : v.default with
  | none =>
    rw [hdefault] at htexts
    exact .named htexts
  | some default =>
    rw [hdefault] at htexts
    exact .defaulted htexts

theorem isObtained (v : Variable) : v.IsObtained := by
  cases htype : v.type with
  | none =>
    have hv : v.untyped = v := by rw [untyped, ← htype]
    exact hv ▸ v.isObtained_untyped
  | some type =>
    have hv : v.untyped.withType type = v := by rw [withType, ← htype]; rfl
    exact hv ▸ .typed type v.isObtained_untyped

/-! ## Reading back -/

theorem exists_parse_iff {s : String} :
    (∃ v, parse s = .ok v) ↔ Abnf.Derives Abnf.var s.toList := by
  rw [Abnf.derives_var]
  simp only [parse_eq_ok, String.toList_inj, and_comm]

theorem exists_ofTexts?_iff {name : String} {default : Option String} :
    (∃ v, ofTexts? name default = .ok v) ↔ Abnf.Derives Abnf.varname name.toList ∧
      ∀ text ∈ default, Abnf.Derives Abnf.vardefault text.toList := by
  simp only [Abnf.derives_varname, Abnf.derives_vardefault]
  constructor
  · intro ⟨v, hv⟩
    obtain ⟨rfl, rfl, -⟩ := eq_of_ofTexts? hv
    refine ⟨v.name.isName, fun text htext => ?_⟩
    obtain ⟨e, -, rfl⟩ := Option.map_eq_some_iff.1 htext
    exact e.isEncoded
  · intro ⟨hname, hdefault⟩
    cases default with
    | none => exact ⟨{ name := ⟨name, hname⟩ }, ofTexts?_of_eq rfl rfl rfl⟩
    | some text =>
      have htext : IsEncoded text.toList := hdefault text rfl
      exact ⟨{ name := ⟨name, hname⟩, default := some ⟨text, htext⟩ }, ofTexts?_of_eq rfl rfl rfl⟩

theorem parse_text_eq_untyped (v : Variable) : parse v.text = .ok v.untyped :=
  parse_text (v := v.untyped) rfl

theorem ofDatum_text (v : Variable) : ofDatum (.text v.text) = .ok v.untyped := by
  rw [ofDatum, parse_text_eq_untyped]
  rfl

theorem eq_iff_text {v w : Variable} (hv : v.type = none) (hw : w.type = none) :
    v = w ↔ v.text = w.text := by
  refine ⟨congrArg text, fun h => ?_⟩
  have hparse := parse_text hv
  rw [h, parse_text hw] at hparse
  exact (Except.ok.inj hparse).symm

/-- Reading accepts what the rule for variables derives, and gives a variable that is written as the
text and has no type. Texts of a name and a default are accepted if the grammar derives them. So
every variable that can be had is in the grammar, and what it is written as is read back, from a
text and from a datum, to the same variable without its type; those without a type are told apart by
what they are written as. -/
theorem parse_grammar :
    (∀ s : String, (∃ v, parse s = .ok v) ↔ Abnf.Derives Abnf.var s.toList) ∧
    (∀ s v, parse s = .ok v → v.text = s ∧ v.type = none) ∧
    (∀ name default, (∃ v, ofTexts? name default = .ok v) ↔
      Abnf.Derives Abnf.varname name.toList ∧
        ∀ text ∈ default, Abnf.Derives Abnf.vardefault text.toList) ∧
    (∀ v : Variable, v.IsObtained ∧ Abnf.Derives Abnf.varname v.name.text.toList ∧
      (∀ e ∈ v.default, Abnf.Derives Abnf.vardefault e.text.toList) ∧
      parse v.text = .ok v.untyped ∧ ofDatum (.text v.text) = .ok v.untyped) ∧
    ∀ v w : Variable, v.type = none → w.type = none → (v = w ↔ v.text = w.text) := by
  refine ⟨fun s => exists_parse_iff, fun s v => text_of_parse,
    fun name default => exists_ofTexts?_iff, fun v => ?_, fun v w => eq_iff_text⟩
  have hname := Abnf.derives_varname.2 v.name.isName
  exact ⟨v.isObtained, hname, fun e _ => Abnf.derives_vardefault.2 e.isEncoded,
    v.parse_text_eq_untyped, v.ofDatum_text⟩

/-- `sort=%2c`, with a type. -/
def sorted : Variable := ⟨⟨"sort", by decide⟩, some ⟨"%2c", by decide⟩, some ⟨"field", by decide⟩⟩

theorem parse_grammar_sorted :
    Abnf.Derives Abnf.var "sort=%2c".toList ∧ ¬ Abnf.Derives Abnf.var "sort=a=b".toList ∧
    sorted.untyped.text = "sort=%2c" ∧ Abnf.Derives Abnf.vardefault "%2c".toList ∧
    parse sorted.text = .ok sorted.untyped ∧ ofDatum (.text sorted.text) = .ok sorted.untyped ∧
    sorted.untyped ≠ { name := ⟨"sort", by decide⟩ } := by
  have hfault : parse "sort=a=b" = .error (.badDefault "a=b" 1) := rfl
  obtain ⟨haccepts, hread, -, hobtained, htexts⟩ := parse_grammar
  obtain ⟨-, -, hdefault, hparse, hdatum⟩ := hobtained sorted
  refine ⟨(haccepts _).1 ⟨_, hparse⟩, fun h => ?_, (hread _ _ hparse).1, hdefault _ rfl, hparse,
    hdatum, fun h => ?_⟩
  · obtain ⟨v, hv⟩ := (haccepts _).2 h
    rw [hfault] at hv
    cases hv
  · exact absurd ((htexts _ _ rfl rfl).1 h) (by decide)

end Variable
end UriTemplate
