import UriTemplate.Proofs.Grammar.Templates
import UriTemplate.Template.Scan

/-!
# Scanning and printing

`Template.scan_eq_ok`: scanning a text gives a template exactly when the template has no types and
is written as that text.

The invariant of a run is `Scanner.HasRead`: what the scanner has put together is written as the
characters read so far. It says that an accepted text is the written form of its template. In the
other direction `Scanner.run_literal` and `Scanner.run_expression` read one written part.
-/

namespace UriTemplate

/-! ## What has been read -/

namespace Growing

def written (g : Growing) : List Char := g.finish.text.toList

theorem written_eq (g : Growing) :
    g.written = g.done.reverse.flatMap Field.written ++ g.last.text.toList :=
  Template.toList_text g.finish

theorem written_push (g : Growing) (c : Char) (h : !isBrace c) :
    (g.push c h).written = g.written ++ [c] := by
  rw [written_eq, written_eq]
  simp [push]

theorem written_expression (g : Growing) (v : Variable) : (g.expression v).written =
    g.written ++ expressionStart :: (v.text.toList ++ [expressionEnd]) := by
  rw [written_eq, written_eq]
  simp [expression, Field.written]

end Growing

theorem Literal.eq_of_toList {l m : Literal} (h : l.text.toList = m.text.toList) : l = m := by
  obtain ⟨s, hs⟩ := l
  obtain ⟨t, ht⟩ := m
  obtain rfl : s = t := String.toList_inj.1 h
  rfl

namespace Scanner

/-- What is put together, without an expression under way. -/
def growing : Scanner → Growing
  | text g => g
  | expression g _ _ => g

/-- The characters of an expression under way. -/
def pending : Scanner → List Char
  | text _ => []
  | expression _ _ body => expressionStart :: body.reverse

/-- The scanner has read `cs`, and no variable has a type. -/
structure HasRead (s : Scanner) (cs : List Char) : Prop where
  written : cs = s.growing.written ++ s.pending
  untyped : ∀ f ∈ s.growing.done, f.slot.type = none

theorem hasRead_start : HasRead (.text {}) [] := ⟨rfl, fun _ h => absurd h List.not_mem_nil⟩

theorem HasRead.close {g : Growing} {start : Nat} {body cs : List Char} {s' : Scanner}
    (h : HasRead (.expression g start body) cs) (hclose : close g start body = .ok s') :
    HasRead s' (cs ++ [expressionEnd]) := by
  unfold Scanner.close at hclose
  by_cases hbody : body.isEmpty
  · rw [if_pos hbody] at hclose
    cases hclose
  rw [if_neg hbody] at hclose
  cases hparse : Variable.parse (String.ofList body.reverse) with
  | error fault =>
    rw [hparse] at hclose
    cases hclose
  | ok v =>
    rw [hparse] at hclose
    cases hclose
    obtain ⟨htext, htype⟩ := Variable.text_of_parse hparse
    refine ⟨?_, List.forall_mem_cons.2 ⟨htype, h.untyped⟩⟩
    rw [h.written]
    simp [growing, pending, Growing.written_expression, htext]

theorem HasRead.step {s s' : Scanner} {cs : List Char} {offset : Nat} {c : Char}
    (h : HasRead s cs) (hstep : s.step offset c = .ok s') : HasRead s' (cs ++ [c]) := by
  cases s with
  | text g =>
    simp only [Scanner.step] at hstep
    by_cases hplain : !isBrace c
    · rw [dif_pos hplain] at hstep
      cases hstep
      refine ⟨?_, h.untyped⟩
      rw [h.written]
      simp [growing, pending, Growing.written_push]
    rw [dif_neg hplain] at hstep
    by_cases hopen : c = expressionStart
    · rw [if_pos hopen] at hstep
      cases hstep
      refine ⟨?_, h.untyped⟩
      rw [h.written]
      simp [growing, pending, hopen]
    · rw [if_neg hopen] at hstep
      cases hstep
  | expression g start body =>
    simp only [Scanner.step] at hstep
    by_cases hplain : !isBrace c
    · rw [if_pos hplain] at hstep
      cases hstep
      refine ⟨?_, h.untyped⟩
      rw [h.written]
      simp [growing, pending]
    rw [if_neg hplain] at hstep
    by_cases hclose : c = expressionEnd
    · rw [if_pos hclose] at hstep
      exact hclose ▸ h.close hstep
    · rw [if_neg hclose] at hstep
      cases hstep

theorem HasRead.run {s s' : Scanner} {cs ds : List Char} {offset : Nat} (h : HasRead s cs)
    (hrun : s.run offset ds = .ok s') : HasRead s' (cs ++ ds) := by
  induction ds generalizing s cs offset with
  | nil =>
    cases hrun
    rwa [List.append_nil]
  | cons d ds ih =>
    rw [Scanner.run] at hrun
    cases hstep : s.step offset d with
    | error fault =>
      rw [hstep] at hrun
      cases hrun
    | ok s₁ =>
      rw [hstep] at hrun
      rw [List.append_cons]
      exact ih (h.step hstep) hrun

/-! ## Reading a written form -/

theorem run_append_of_ok {s s' : Scanner} {offset : Nat} {a : List Char}
    (h : s.run offset a = .ok s') (b : List Char) :
    s.run offset (a ++ b) = s'.run (offset + byteLength a) b := by
  rw [run_append, h]

theorem run_plain {cs : List Char} (h : IsPlain cs) (done : List Field) {last m : Literal}
    (hm : m.text.toList = last.text.toList ++ cs) (offset : Nat) :
    (text ⟨done, last⟩).run offset cs = .ok (.text ⟨done, m⟩) := by
  induction cs generalizing last offset with
  | nil =>
    rw [List.append_nil] at hm
    rw [run, Literal.eq_of_toList hm]
  | cons c cs ih =>
    obtain ⟨hc, hcs⟩ := List.forall_mem_cons.1 h
    rw [run, step, dif_pos hc]
    exact ih hcs (by simpa using hm) _

theorem run_body {cs : List Char} (h : IsPlain cs) (g : Growing) (start : Nat) (body : List Char)
    (offset : Nat) : (expression g start body).run offset cs =
      .ok (.expression g start (cs.reverse ++ body)) := by
  induction cs generalizing body offset with
  | nil => rfl
  | cons c cs ih =>
    obtain ⟨hc, hcs⟩ := List.forall_mem_cons.1 h
    rw [run, step, if_pos hc]
    simp only
    rw [ih hcs, List.reverse_cons, List.append_assoc]
    rfl

theorem run_expression {v : Variable} (h : v.type = none) (g : Growing) (offset : Nat) :
    (text g).run offset (expressionStart :: (v.text.toList ++ [expressionEnd])) =
      .ok (.text (g.expression v)) := by
  have hopen : (text g).step offset expressionStart = .ok (.expression g offset []) := rfl
  have hbody := run_body v.isPlain_text g offset [] (offset + expressionStart.utf8Size)
  have hclose : ∀ position, (expression g offset v.text.toList.reverse).step position
      expressionEnd = .ok (.text (g.expression v)) := by
    intro position
    have hne : v.text.toList.reverse.isEmpty = false := by
      simpa using v.toList_text_ne_nil
    show close g offset v.text.toList.reverse = _
    rw [close, hne, List.reverse_reverse, String.ofList_toList, Variable.parse_text h]
    rfl
  rw [run, hopen]
  simp only
  rw [run_append_of_ok hbody, List.append_nil, run, hclose]
  rfl

theorem run_field {f : Field} (h : f.slot.type = none) (done : List Field) (offset : Nat) :
    (text ⟨done, .empty⟩).run offset f.written = .ok (.text ⟨f :: done, .empty⟩) := by
  have hbefore : (text ⟨done, .empty⟩).run offset f.before.text.toList =
      .ok (.text ⟨done, f.before⟩) := run_plain f.before.isPlain done rfl offset
  rw [Field.written, run_append_of_ok hbefore, run_expression h]
  rfl

theorem run_fields {fs : List Field} (h : ∀ f ∈ fs, f.slot.type = none) (done : List Field)
    (offset : Nat) : (text ⟨done, .empty⟩).run offset (fs.flatMap Field.written) =
      .ok (.text ⟨fs.reverse ++ done, .empty⟩) := by
  induction fs generalizing done offset with
  | nil => rfl
  | cons f fs ih =>
    obtain ⟨hf, hfs⟩ := List.forall_mem_cons.1 h
    rw [List.flatMap_cons, run_append_of_ok (run_field hf done offset), ih hfs, List.reverse_cons,
      List.append_assoc]
    rfl

/-! ## Faults -/

theorem close_ne_tooLarge (read : Growing) (start : Nat) (body : List Char) :
    close read start body ≠ .error .tooLarge := by
  unfold close
  split
  · exact nofun
  · split <;> exact nofun

theorem step_ne_tooLarge (s : Scanner) (offset : Nat) (c : Char) :
    s.step offset c ≠ .error .tooLarge := by
  unfold step
  split
  · split
    · exact nofun
    · split <;> exact nofun
  · split
    · exact nofun
    · split
      · exact close_ne_tooLarge _ _ _
      · exact nofun

theorem run_ne_tooLarge (s : Scanner) (offset : Nat) (cs : List Char) :
    s.run offset cs ≠ .error .tooLarge := by
  induction cs generalizing s offset with
  | nil => exact nofun
  | cons c cs ih =>
    rw [run]
    cases hstep : s.step offset c with
    | ok s' => exact ih s' _
    | error fault =>
      intro h
      cases h
      exact s.step_ne_tooLarge offset c hstep

end Scanner

namespace Template

/-- The size of a template plays no part in scanning it. -/
theorem scan_ne_tooLarge (cs : List Char) : scan cs ≠ .error .tooLarge := by
  unfold scan
  cases hrun : (Scanner.text {}).run 0 cs with
  | ok s => cases s <;> exact nofun
  | error fault =>
    intro h
    cases h
    exact Scanner.run_ne_tooLarge _ _ _ hrun

theorem scan_text {t : Template} (h : t.IsUntyped) : scan t.text.toList = .ok t := by
  have hfields := Scanner.run_fields (List.forall_mem_map.1 h) [] 0
  have htail : ∀ offset, (Scanner.text ⟨t.fields.reverse ++ [], .empty⟩).run offset
      t.tail.text.toList = .ok (.text ⟨t.fields.reverse ++ [], t.tail⟩) :=
    Scanner.run_plain t.tail.isPlain _ rfl
  rw [scan, toList_text, Scanner.run_append_of_ok hfields, htail]
  simp [Scanner.finish, Growing.finish]

theorem text_of_scan {cs : List Char} {t : Template} (h : scan cs = .ok t) :
    t.IsUntyped ∧ t.text.toList = cs := by
  unfold scan at h
  cases hrun : (Scanner.text {}).run 0 cs with
  | error fault =>
    rw [hrun] at h
    cases h
  | ok s =>
    rw [hrun] at h
    have hread := Scanner.hasRead_start.run hrun
    cases s with
    | expression g start body => cases h
    | text g =>
      cases h
      refine ⟨?_, ?_⟩
      · refine List.forall_mem_map.2 fun f hf => hread.untyped f ?_
        exact List.mem_reverse.1 hf
      · exact (hread.written.trans (List.append_nil _)).symm

theorem scan_eq_ok {cs : List Char} {t : Template} :
    scan cs = .ok t ↔ t.IsUntyped ∧ t.text.toList = cs := by
  refine ⟨text_of_scan, fun ⟨h, hcs⟩ => ?_⟩
  rw [← hcs]
  exact scan_text h

end Template

end UriTemplate
