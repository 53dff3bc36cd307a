import UriTemplate.Proofs.Grammar.Abnf
import UriTemplate.Variable

/-!
# Reading and printing variables

`Variable.parse_eq_ok`: reading a text gives a variable exactly when the variable has no type and is
written as that text. So reading and printing are inverse to each other, and the rule of the grammar
for variables derives what they are written as (`Abnf.derives_var`).
-/

namespace UriTemplate

/-! ## Names and defaults -/

theorem Name.exists_of_isName {cs : List Char} (h : IsName cs) :
    ∃ name : Name, name.text.toList = cs :=
  ⟨⟨String.ofList cs, by rwa [String.toList_ofList]⟩, String.toList_ofList⟩

theorem Encoded.exists_of_isEncoded {cs : List Char} (h : IsEncoded cs) :
    ∃ e : Encoded, e.text.toList = cs :=
  ⟨⟨String.ofList cs, by rwa [String.toList_ofList]⟩, String.toList_ofList⟩

theorem IsName.forall_isUnreserved {cs : List Char} (h : IsName cs) : ∀ c ∈ cs, isUnreserved c := by
  match cs, h with
  | c :: cs, ⟨hc, hcs⟩ =>
    refine List.forall_mem_cons.2 ⟨by simp [isUnreserved_eq, hc], fun d hd => ?_⟩
    exact isNameChar_isUnreserved (hcs d hd)

namespace Variable

/-! ## Reading -/

theorem ofTexts?_of_eq {name : String} {default : Option String} {v : Variable}
    (hname : v.name.text = name) (hdefault : v.default.map Encoded.text = default)
    (htype : v.type = none) : ofTexts? name default = .ok v := by
  obtain ⟨vname, vdefault, vtype⟩ := v
  obtain rfl : vtype = none := htype
  subst hname hdefault
  rw [ofTexts?, Name.ofString?_eq_ok.2 rfl]
  cases vdefault with
  | none => rfl
  | some e =>
    simp only [Option.map_some]
    rw [Encoded.ofString?_eq_ok.2 rfl]

theorem eq_of_ofTexts? {name : String} {default : Option String} {v : Variable}
    (h : ofTexts? name default = .ok v) :
    v.name.text = name ∧ v.default.map Encoded.text = default ∧ v.type = none := by
  unfold ofTexts? at h
  cases hname : Name.ofString? name with
  | error fault => rw [hname] at h; cases h
  | ok n =>
    rw [hname] at h
    cases default with
    | none =>
      cases h
      exact ⟨Name.ofString?_eq_ok.1 hname, rfl, rfl⟩
    | some text =>
      cases hdefault : Encoded.ofString? text with
      | error position => simp [hdefault] at h
      | ok e =>
        simp only [hdefault] at h
        cases h
        exact ⟨Name.ofString?_eq_ok.1 hname, congrArg some (Encoded.ofString?_eq_ok.1 hdefault), rfl⟩

/-- The name is looked at first. -/
theorem ofTexts?_eq_badName {name other : String} {default : Option String} {fault : NameFault} :
    ofTexts? name default = .error (.badName other fault) ↔
      other = name ∧ Name.fault? name.toList = some fault := by
  rw [← Name.ofString?_eq_error]
  unfold ofTexts?
  cases hname : Name.ofString? name with
  | error found => simp [eq_comm]
  | ok n =>
    cases default with
    | none => simp
    | some text => cases hdefault : Encoded.ofString? text <;> simp [hdefault]

/-- A default is looked at once the name before it is read. -/
theorem ofTexts?_eq_badDefault {name text : String} {default : Option String} {position : Nat} :
    ofTexts? name default = .error (.badDefault text position) ↔
      IsName name.toList ∧ default = some text ∧ Encoded.fault? text.toList = some position := by
  rw [← Encoded.ofString?_eq_error, ← Name.fault?_eq_none_iff]
  unfold ofTexts?
  cases hname : Name.ofString? name with
  | error fault => simp [Name.ofString?_eq_error.1 hname]
  | ok n =>
    obtain rfl := Name.ofString?_eq_ok.1 hname
    have hn := Name.fault?_eq_none_iff.2 n.isName
    cases default with
    | none => simp
    | some found =>
      cases hdefault : Encoded.ofString? found with
      | error place =>
        constructor
        · intro h
          simp only [hdefault] at h
          cases h
          exact ⟨hn, rfl, hdefault⟩
        · rintro ⟨-, heq, h⟩
          cases heq
          simp only [h]
      | ok e =>
        constructor
        · intro h
          simp only [hdefault] at h
          cases h
        · rintro ⟨-, heq, h⟩
          cases heq
          rw [hdefault] at h
          cases h

/-- The default of a variable as it is written, with its mark. -/
def suffix (v : Variable) : List Char :=
  match v.default with
  | none => []
  | some e => defaultMark :: e.text.toList

theorem toList_text (v : Variable) : v.text.toList = v.name.text.toList ++ v.suffix := by
  unfold text suffix
  cases v.default with
  | none => exact (List.append_nil _).symm
  | some e =>
    show (v.name.text ++ defaultMark.toString ++ e.text).toList = _
    rw [String.toList_append, String.toList_append, List.append_assoc]
    rfl

theorem ne_defaultMark (n : Name) : ∀ c ∈ n.text.toList, (c != defaultMark) = true := by
  have hmark : isUnreserved defaultMark = false := by decide
  intro c hc
  rw [bne_iff_ne]
  intro heq
  subst heq
  have hunreserved := n.isName.forall_isUnreserved _ hc
  rw [hmark] at hunreserved
  cases hunreserved

theorem split_text (v : Variable) : v.text.toList.takeWhile (· != defaultMark) = v.name.text.toList ∧
    v.text.toList.dropWhile (· != defaultMark) = v.suffix := by
  rw [toList_text, List.takeWhile_append_of_pos (ne_defaultMark v.name),
    List.dropWhile_append_of_pos (ne_defaultMark v.name)]
  unfold suffix
  cases v.default with
  | none => simp
  | some e => simp

theorem parse_text {v : Variable} (htype : v.type = none) : parse v.text = .ok v := by
  obtain ⟨hname, hsuffix⟩ := split_text v
  simp only [parse, hname, hsuffix, String.ofList_toList]
  cases hdefault : v.default with
  | none =>
    simp only [suffix, hdefault]
    exact ofTexts?_of_eq rfl (congrArg (Option.map Encoded.text) hdefault) htype
  | some e =>
    simp only [suffix, hdefault, String.ofList_toList]
    exact ofTexts?_of_eq rfl (congrArg (Option.map Encoded.text) hdefault) htype

theorem text_of_parse {s : String} {v : Variable} (h : parse s = .ok v) :
    v.text = s ∧ v.type = none := by
  unfold parse at h
  simp only at h
  have hsplit := List.takeWhile_append_dropWhile (p := (· != defaultMark)) (l := s.toList)
  cases hrest : s.toList.dropWhile (· != defaultMark) with
  | nil =>
    rw [hrest] at h hsplit
    obtain ⟨hname, hdefault, htype⟩ := eq_of_ofTexts? h
    rw [Option.map_eq_none_iff] at hdefault
    rw [← String.toList_inj, toList_text, hname, String.toList_ofList, suffix, hdefault]
    exact ⟨hsplit, htype⟩
  | cons c default =>
    have hmark := List.head?_dropWhile_not (· != defaultMark) s.toList
    rw [hrest] at h hsplit hmark
    obtain rfl : c = defaultMark := by simpa using hmark
    obtain ⟨hname, hdefault, htype⟩ := eq_of_ofTexts? h
    obtain ⟨e, he, htext⟩ := Option.map_eq_some_iff.1 hdefault
    rw [← String.toList_inj, toList_text, hname, String.toList_ofList, suffix, he]
    simp only [htext, String.toList_ofList]
    exact ⟨hsplit, htype⟩

theorem parse_eq_ok {s : String} {v : Variable} : parse s = .ok v ↔ v.text = s ∧ v.type = none := by
  refine ⟨text_of_parse, fun ⟨htext, htype⟩ => ?_⟩
  rw [← htext]
  exact parse_text htype

/-! ## In the grammar -/

theorem ne_nil_of_isName {cs : List Char} (h : IsName cs) : cs ≠ [] := by
  intro heq
  rw [heq] at h
  exact h

theorem toList_text_ne_nil (v : Variable) : v.text.toList ≠ [] := by
  rw [toList_text]
  exact List.append_ne_nil_of_left_ne_nil (ne_nil_of_isName v.name.isName) _

theorem mem_suffix {v : Variable} {c : Char} (h : c ∈ v.suffix) :
    c = defaultMark ∨ isUnreserved c ∨ c = percentMark := by
  unfold suffix at h
  cases hdefault : v.default with
  | none => simp [hdefault] at h
  | some e =>
    simp only [hdefault, List.mem_cons] at h
    exact h.imp_right (e.isEncoded.mem c)

theorem isPlain_text (v : Variable) : IsPlain v.text.toList := by
  have hunreserved : ∀ c, isUnreserved c → (!isBrace c) = true := by
    intro c hc
    rw [Bool.not_eq_true', isBrace, Bool.or_eq_false_iff, beq_eq_false_iff_ne, beq_eq_false_iff_ne]
    refine ⟨fun heq => ?_, fun heq => ?_⟩
    · exact absurd (heq ▸ hc) (by decide)
    · exact absurd (heq ▸ hc) (by decide)
  intro c hc
  rw [toList_text, List.mem_append] at hc
  rcases hc with hc | hc
  · exact hunreserved c (v.name.isName.forall_isUnreserved c hc)
  · rcases mem_suffix hc with rfl | hc | rfl
    · decide
    · exact hunreserved c hc
    · decide

end Variable

theorem Abnf.derives_var {cs : List Char} :
    Derives var cs ↔ ∃ v : Variable, v.type = none ∧ v.text.toList = cs := by
  have hmark : ∀ cs, Derives (.text "=") cs ↔ cs = [defaultMark] :=
    fun _ => derives_mark (isClass_mark '=' rfl (by decide) (by decide))
  rw [var, derives_seq]
  constructor
  · intro ⟨x, y, hcs, hx, hy⟩
    obtain ⟨name, rfl⟩ := Name.exists_of_isName (derives_varname.1 hx)
    rcases derives_opt.1 hy with rfl | hy
    · exact ⟨{ name }, rfl, (Variable.toList_text _).trans hcs.symm⟩
    · obtain ⟨mark, default, rfl, hmark', hdefault⟩ := derives_seq.1 hy
      obtain ⟨e, rfl⟩ := Encoded.exists_of_isEncoded (derives_vardefault.1 hdefault)
      rw [(hmark mark).1 hmark'] at hcs
      exact ⟨{ name, default := some e }, rfl, (Variable.toList_text _).trans hcs.symm⟩
  · intro ⟨v, _, hcs⟩
    rw [← hcs, Variable.toList_text]
    refine ⟨_, _, rfl, derives_varname.2 v.name.isName, ?_⟩
    unfold Variable.suffix
    cases v.default with
    | none => exact .absent
    | some e =>
      exact .present (.seq ((hmark _).2 rfl) (derives_vardefault.2 e.isEncoded))

end UriTemplate
