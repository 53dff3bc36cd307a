import UriTemplate.Proofs.Grammar.Compiling

/-!
# The first fault of a text

What scanning a text comes to: a template, or one of five faults at a byte (`Template.Verdict`). What
stands before the place of a fault is a template, or a template and an expression that is still open.
`Template.verdict_iff` says that a text has one verdict, which is what scanning gives, and
`Template.compile_verdict` carries it over to compiling.

The invariant of a run is `Scanner.HasReached`: in literal text, all that was read is a template; inside
an expression, all that was read before it is. A step keeps it or ends in a fault that stands where
the verdict says (`Scanner.HasReached.step`), so every text has a verdict. In the other direction each
verdict is scanned up to its fault (`Template.Verdict.scan_eq`).
-/

namespace UriTemplate
namespace Template

/-! ## Verdicts -/

/-- A text that is scanned without a fault. -/
def Scans (cs : List Char) : Prop := ∃ t, scan cs = .ok t

/-- What scanning a text comes to: no fault, or the first one. -/
inductive Verdict : List Char → Option TemplateFault → Prop
  | template {cs : List Char} : Scans cs → Verdict cs none
  /-- A brace opens after a template, and no brace follows. -/
  | unclosed {u w : List Char} : Scans u → IsPlain w →
      Verdict (u ++ expressionStart :: w) (some (.unclosedExpression (byteLength u)))
  /-- Two braces with nothing between them follow a template. -/
  | empty {u rest : List Char} : Scans u →
      Verdict (u ++ expressionStart :: expressionEnd :: rest)
        (some (.emptyExpression (byteLength u)))
  /-- Two braces with something between them that is no variable follow a template. -/
  | badVariable {u x rest : List Char} {fault : VariableFault} : Scans u → x ≠ [] → IsPlain x →
      Variable.parse (String.ofList x) = .error fault →
      Verdict (u ++ expressionStart :: (x ++ expressionEnd :: rest))
        (some (.badVariable (byteLength u) fault))
  /-- A brace closes after a template. -/
  | stray {u rest : List Char} : Scans u →
      Verdict (u ++ expressionEnd :: rest) (some (.unexpectedBrace expressionEnd (byteLength u)))
  /-- A brace opens after a template and an expression that is still open. -/
  | nested {u w rest : List Char} : Scans u → IsPlain w →
      Verdict (u ++ expressionStart :: (w ++ expressionStart :: rest))
        (some (.unexpectedBrace expressionStart (byteLength (u ++ expressionStart :: w))))

/-- A fault before the end of a text is the fault of every text that goes on from there. -/
theorem Verdict.append {cs : List Char} {fault : TemplateFault} (h : Verdict cs (some fault))
    (hclosed : ∀ position, fault ≠ .unclosedExpression position) (more : List Char) :
    Verdict (cs ++ more) (some fault) := by
  cases h with
  | unclosed _ _ => exact absurd rfl (hclosed _)
  | @empty _ rest hu => simpa using @Verdict.empty _ (rest ++ more) hu
  | @badVariable _ _ rest _ hu hne hx hparse =>
    simpa using @Verdict.badVariable _ _ (rest ++ more) _ hu hne hx hparse
  | @stray _ rest hu => simpa using @Verdict.stray _ (rest ++ more) hu
  | @nested _ _ rest hu hw => simpa using @Verdict.nested _ _ (rest ++ more) hu hw

theorem scans_iff {cs : List Char} :
    Scans cs ↔ ∃ g, (Scanner.text {}).run 0 cs = .ok (.text g) := by
  constructor
  · rintro ⟨t, h⟩
    unfold scan at h
    cases hrun : (Scanner.text {}).run 0 cs with
    | error fault =>
      rw [hrun] at h
      cases h
    | ok s =>
      cases s with
      | text g => exact ⟨g, rfl⟩
      | expression g start body =>
        rw [hrun] at h
        cases h
  · rintro ⟨g, h⟩
    exact ⟨g.finish, by rw [scan, h]; rfl⟩

end Template

namespace Scanner

open Template

/-! ## Expressions -/

theorem eq_brace {c : Char} (h : ¬ (!isBrace c) = true) :
    c = expressionStart ∨ c = expressionEnd := by
  rwa [Bool.not_eq_true, Bool.not_eq_false', isBrace, Bool.or_eq_true, beq_iff_eq, beq_iff_eq] at h

theorem run_open {w : List Char} (hw : IsPlain w) (g : Growing) (offset : Nat) :
    (text g).run offset (expressionStart :: w) = .ok (.expression g offset w.reverse) := by
  have hbody := run_body hw g offset [] (offset + expressionStart.utf8Size)
  rwa [List.append_nil] at hbody

theorem step_close (g : Growing) (start offset : Nat) (body : List Char) :
    (expression g start body).step offset expressionEnd = close g start body := rfl

theorem close_of_ok {x : List Char} {v : Variable} (hx : x ≠ [])
    (hparse : Variable.parse (String.ofList x) = .ok v) (g : Growing) (start : Nat) :
    close g start x.reverse = .ok (.text (g.expression v)) := by
  rw [close, if_neg (by simpa using hx), List.reverse_reverse, hparse]

theorem close_of_error {x : List Char} {fault : VariableFault} (hx : x ≠ [])
    (hparse : Variable.parse (String.ofList x) = .error fault) (g : Growing) (start : Nat) :
    close g start x.reverse = .error (.badVariable start fault) := by
  rw [close, if_neg (by simpa using hx), List.reverse_reverse, hparse]

/-- The fault of an expression that is closed is found where it is closed. -/
theorem run_braces_of_error {x : List Char} (hx : IsPlain x) {g : Growing} {offset : Nat}
    {fault : TemplateFault} (h : close g offset x.reverse = .error fault) (rest : List Char) :
    (text g).run offset (expressionStart :: (x ++ expressionEnd :: rest)) = .error fault := by
  rw [← List.cons_append, run_append_of_ok (run_open hx g offset), run, step_close, h]

/-! ## Every text has a verdict -/

/-- The scanner stands behind `cs`: what it has read is a template, or is one before the expression
that is open. -/
inductive HasReached : Scanner → List Char → Prop
  | text {g : Growing} {cs : List Char} : (Scanner.text {}).run 0 cs = .ok (.text g) →
      HasReached (.text g) cs
  | expression {g : Growing} {u w : List Char} : (Scanner.text {}).run 0 u = .ok (.text g) →
      IsPlain w → HasReached (.expression g (byteLength u) w.reverse) (u ++ expressionStart :: w)

theorem HasReached.run_eq {s : Scanner} {cs : List Char} (h : HasReached s cs) :
    (Scanner.text {}).run 0 cs = .ok s := by
  cases h with
  | text hcs => exact hcs
  | expression hu hw => rw [run_append_of_ok hu, run_open hw, Nat.zero_add]

theorem HasReached.of_text {g : Growing} {s : Scanner} {cs : List Char} {c : Char}
    (h : HasReached s cs) (hstep : s.step (byteLength cs) c = .ok (.text g)) :
    HasReached (.text g) (cs ++ [c]) := by
  refine .text ?_
  rw [run_append_of_ok h.run_eq, Nat.zero_add, run, hstep]
  rfl

/-- Closing an expression gives a template, or a fault of the expression. -/
theorem HasReached.close {g : Growing} {u w : List Char}
    (hu : (Scanner.text {}).run 0 u = .ok (.text g)) (hw : IsPlain w) :
    (∃ g', Scanner.close g (byteLength u) w.reverse = .ok (.text g')) ∨
    ∃ fault, Scanner.close g (byteLength u) w.reverse = .error fault ∧
      ∀ rest, Verdict (u ++ expressionStart :: (w ++ expressionEnd :: rest)) (some fault) := by
  have hscans := scans_iff.2 ⟨g, hu⟩
  by_cases hempty : w = []
  · subst hempty
    exact .inr ⟨_, rfl, fun _ => .empty hscans⟩
  cases hparse : Variable.parse (String.ofList w) with
  | ok v => exact .inl ⟨_, close_of_ok hempty hparse g _⟩
  | error fault =>
    exact .inr ⟨_, close_of_error hempty hparse g _, fun _ => .badVariable hscans hempty hw hparse⟩

/-- A step goes on, or it ends in the fault of every text that begins so. -/
theorem HasReached.step {s : Scanner} {cs : List Char} (h : HasReached s cs) (c : Char) :
    (∃ s', s.step (byteLength cs) c = .ok s' ∧ HasReached s' (cs ++ [c])) ∨
    ∃ fault, s.step (byteLength cs) c = .error fault ∧
      ∀ rest, Verdict (cs ++ c :: rest) (some fault) := by
  by_cases hplain : !isBrace c
  · refine .inl ?_
    cases h with
    | @text g cs hcs =>
      have hstep : (Scanner.text g).step (byteLength cs) c = .ok (.text (g.push c hplain)) :=
        dif_pos hplain
      exact ⟨_, hstep, (HasReached.text hcs).of_text hstep⟩
    | @expression g u w hu hw =>
      have hw' : IsPlain (w ++ [c]) :=
        List.forall_mem_append.2 ⟨hw, List.forall_mem_singleton.2 hplain⟩
      refine ⟨.expression g (byteLength u) (c :: w.reverse), if_pos hplain, ?_⟩
      simpa using HasReached.expression hu hw'
  · cases h with
    | @text g cs hcs =>
      rcases eq_brace hplain with rfl | rfl
      · exact .inl ⟨_, rfl, .expression hcs fun _ hd => absurd hd List.not_mem_nil⟩
      · exact .inr ⟨_, rfl, fun _ => .stray (scans_iff.2 ⟨g, hcs⟩)⟩
    | @expression g u w hu hw =>
      rcases eq_brace hplain with rfl | rfl
      · refine .inr ⟨_, rfl, fun rest => ?_⟩
        simpa using @Verdict.nested _ _ rest (scans_iff.2 ⟨g, hu⟩) hw
      · rw [step_close]
        rcases HasReached.close hu hw with ⟨g', hclose⟩ | ⟨fault, hclose, hfault⟩
        · exact .inl ⟨_, hclose, (HasReached.expression hu hw).of_text hclose⟩
        · exact .inr ⟨fault, hclose, fun rest => by simpa using hfault rest⟩

/-- So does a run. -/
theorem HasReached.run {s : Scanner} {cs : List Char} (h : HasReached s cs) (ds : List Char) :
    (∃ s', s.run (byteLength cs) ds = .ok s' ∧ HasReached s' (cs ++ ds)) ∨
    ∃ fault, s.run (byteLength cs) ds = .error fault ∧ Verdict (cs ++ ds) (some fault) := by
  induction ds generalizing s cs with
  | nil => exact .inl ⟨s, rfl, by rwa [List.append_nil]⟩
  | cons d ds ih =>
    rw [Scanner.run]
    rcases h.step d with ⟨s', hstep, hs'⟩ | ⟨fault, hstep, hfault⟩
    · have hrest := ih hs'
      rw [byteLength_append, byteLength_cons, byteLength_nil, Nat.add_zero, ← List.append_cons]
        at hrest
      rw [hstep]
      exact hrest
    · rw [hstep]
      exact .inr ⟨fault, rfl, hfault ds⟩

end Scanner

/-! ## The verdict is what scanning gives -/

namespace Template

theorem scan_append {u : List Char} {g : Growing} (hu : (Scanner.text {}).run 0 u = .ok (.text g))
    (rest : List Char) :
    scan (u ++ rest) = (Scanner.text g).run (byteLength u) rest >>= Scanner.finish := by
  rw [scan, Scanner.run_append_of_ok hu, Nat.zero_add]
  cases (Scanner.text g).run (byteLength u) rest <;> rfl

theorem Verdict.scans {cs : List Char} (h : Verdict cs none) : Scans cs := by
  cases h with
  | template hscans => exact hscans

/-- A fault that is met after a template, whichever it is, is the fault of the text. -/
theorem Scans.scan_eq_error {u rest : List Char} {fault : TemplateFault} (hu : Scans u)
    (h : ∀ g, (Scanner.text g).run (byteLength u) rest = .error fault) :
    scan (u ++ rest) = .error fault := by
  obtain ⟨g, hg⟩ := scans_iff.1 hu
  rw [scan_append hg, h]
  rfl

theorem Verdict.scan_eq {cs : List Char} {fault : TemplateFault} (h : Verdict cs (some fault)) :
    scan cs = .error fault := by
  cases h with
  | unclosed hu hw =>
    -- the only fault that is not met before the end
    obtain ⟨g, hg⟩ := scans_iff.1 hu
    rw [scan_append hg, Scanner.run_open hw]
    rfl
  | empty hu => exact hu.scan_eq_error fun _ => rfl
  | badVariable hu hne hx hparse =>
    exact hu.scan_eq_error fun g =>
      Scanner.run_braces_of_error hx (Scanner.close_of_error hne hparse g _) _
  | stray hu => exact hu.scan_eq_error fun _ => rfl
  | nested hu hw =>
    refine hu.scan_eq_error fun g => ?_
    rw [← List.cons_append, Scanner.run_append_of_ok (Scanner.run_open hw g _), byteLength_append]
    rfl

theorem exists_verdict (cs : List Char) : ∃ verdict, Verdict cs verdict := by
  have hstart : Scanner.HasReached (.text {}) [] := .text rfl
  rcases hstart.run cs with ⟨s, -, hs⟩ | ⟨fault, -, hfault⟩
  · rw [List.nil_append] at hs
    cases hs with
    | text hcs => exact ⟨none, .template (scans_iff.2 ⟨_, hcs⟩)⟩
    | expression hu hw => exact ⟨_, .unclosed (scans_iff.2 ⟨_, hu⟩) hw⟩
  · exact ⟨some fault, hfault⟩

/-- The first fault of a text, if it has any. -/
def fault? (cs : List Char) : Option TemplateFault :=
  match scan cs with
  | .ok _ => none
  | .error fault => some fault

theorem verdict_iff {cs : List Char} {verdict : Option TemplateFault} :
    Verdict cs verdict ↔ verdict = fault? cs := by
  have heq : ∀ {verdict}, Verdict cs verdict → verdict = fault? cs := by
    intro verdict h
    cases verdict with
    | none =>
      obtain ⟨t, ht⟩ := h.scans
      rw [fault?, ht]
    | some fault => rw [fault?, h.scan_eq]
  refine ⟨heq, fun h => ?_⟩
  obtain ⟨other, hother⟩ := exists_verdict cs
  rwa [h, ← heq hother]

/-! ## Compiling -/

theorem compile_of_verdict {s : String} {fault : TemplateFault}
    (h : Verdict s.toList (some fault)) : (compile s).value = .error ⟨s, fault⟩ := by
  rw [value_compile, h.scan_eq]

theorem input_of_compile {s : String} {e : TemplateError} (h : (compile s).value = .error e) :
    e.input = s := by
  rw [value_compile] at h
  split at h
  · split at h <;> cases h
    rfl
  · cases h
    rfl

/-- Only a text without a fault can compile, or be too large to. -/
theorem verdict_none_iff {s : String} :
    Verdict s.toList none ↔ (∃ t, (compile s).value = .ok t) ∨ IsTooLarge s := by
  simp only [compile_eq_ok, isTooLarge_iff]
  constructor
  · intro h
    obtain ⟨t, ht⟩ := h.scans
    by_cases hfits : t.Fits
    · exact .inl ⟨t, ht, hfits⟩
    · exact .inr ⟨t, ht, hfits⟩
  · rintro (⟨t, ht, -⟩ | ⟨t, ht, -⟩) <;> exact .template ⟨t, ht⟩

/-- Every text has one verdict, and compiling reports it: a template if there is no fault and it is
not too large, else the fault, with the text. A fault before the end is reported of every text that
goes on from there. -/
theorem compile_verdict (s : String) :
    (∃ verdict, Verdict s.toList verdict ∧ ∀ other, Verdict s.toList other → other = verdict) ∧
    (∀ e, (compile s).value = .error e → e.input = s) ∧
    ((∃ t, (compile s).value = .ok t) ∨ IsTooLarge s ↔ Verdict s.toList none) ∧
    (∀ fault, fault ≠ .tooLarge →
      ((compile s).value = .error ⟨s, fault⟩ ↔ Verdict s.toList (some fault))) ∧
    ∀ fault, Verdict s.toList (some fault) →
      (∀ position, fault ≠ .unclosedExpression position) →
      ∀ more, (compile (s ++ more)).value = .error ⟨s ++ more, fault⟩ := by
  refine ⟨⟨fault? s.toList, verdict_iff.2 rfl, fun _ => verdict_iff.1⟩, fun _ => input_of_compile,
    verdict_none_iff.symm, fun fault hne => ⟨fun h => ?_, compile_of_verdict⟩,
    fun fault h hclosed more => ?_⟩
  · obtain ⟨verdict, hverdict⟩ := exists_verdict s.toList
    cases verdict with
    | none =>
      rcases verdict_none_iff.1 hverdict with ⟨t, ht⟩ | ⟨e, he, hlarge⟩
      · rw [h] at ht
        cases ht
      · rw [h] at he
        cases he
        exact absurd hlarge hne
    | some other =>
      have hvalue := compile_of_verdict hverdict
      rw [h] at hvalue
      cases hvalue
      exact hverdict
  · apply compile_of_verdict
    rw [String.toList_append]
    exact h.append hclosed more.toList

/-- An expression and an open one with a brace in it, after a character of two bytes. -/
def reopened : String := "é{id}\x7bx\x7b\x7d"

theorem compile_verdict_reopened :
    TemplateFault.unexpectedBrace expressionStart 8 ≠ .tooLarge ∧
    (∀ position, TemplateFault.unexpectedBrace expressionStart 8 ≠ .unclosedExpression position) ∧
    Verdict reopened.toList (some (.unexpectedBrace expressionStart 8)) ∧
    (compile reopened).value = .error ⟨reopened, .unexpectedBrace expressionStart 8⟩ ∧
    (compile (reopened ++ "\x7d")).value =
      .error ⟨reopened ++ "\x7d", .unexpectedBrace expressionStart 8⟩ := by
  have hscans : Scans "é{id}".toList :=
    ⟨⟨[⟨⟨"é", by decide⟩, { name := ⟨"id", by decide⟩ }⟩], .empty⟩, rfl⟩
  have hverdict : Verdict reopened.toList (some (.unexpectedBrace expressionStart 8)) :=
    @Verdict.nested _ ['x'] ['}'] hscans (by decide)
  obtain ⟨-, -, -, hreport, hmore⟩ := compile_verdict reopened
  exact ⟨nofun, nofun, hverdict, (hreport (.unexpectedBrace expressionStart 8) nofun).2 hverdict,
    hmore _ hverdict nofun _⟩

end Template
end UriTemplate
