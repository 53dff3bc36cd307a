import UriTemplate.Proofs.Percent.Pieces
import UriTemplate.Literal
import UriTemplate.Name

/-!
# The grammar of templates

ABNF expressions, what they derive, and the rules of templates. The rules for names, defaults and
literals derive exactly the texts that `IsName`, `IsEncoded` and `IsPlain` describe
(`derives_varname`, `derives_vardefault`, `derives_literal`).

A class of characters is known from its ASCII part: `IsClass.congr` compares two of them by their
first 128 codes.
-/

namespace UriTemplate

/-- An expression of ABNF. -/
inductive Abnf where
  /-- A character with a code in a range, such as `%x00-7A`. -/
  | range (low high : Nat)
  /-- A quoted text, in which the case of letters does not matter. -/
  | text (s : String)
  | alt (a b : Abnf)
  | seq (a b : Abnf)
  /-- At least so many times; `*a` is `many 0 a`, `1*a` is `many 1 a`. -/
  | many (least : Nat) (a : Abnf)
  | opt (a : Abnf)

namespace Abnf

inductive Derives : Abnf → List Char → Prop
  | range {low high : Nat} {c : Char} :
      low ≤ c.toNat → c.toNat ≤ high → Derives (.range low high) [c]
  | text {s : String} {cs : List Char} :
      cs.map Char.toLower = s.toList.map Char.toLower → Derives (.text s) cs
  | left {a b : Abnf} {cs : List Char} : Derives a cs → Derives (.alt a b) cs
  | right {a b : Abnf} {cs : List Char} : Derives b cs → Derives (.alt a b) cs
  | seq {a b : Abnf} {cs ds : List Char} :
      Derives a cs → Derives b ds → Derives (.seq a b) (cs ++ ds)
  | done {a : Abnf} : Derives (.many 0 a) []
  | more {least : Nat} {a : Abnf} {cs ds : List Char} :
      Derives a cs → Derives (.many (least - 1) a) ds → Derives (.many least a) (cs ++ ds)
  | absent {a : Abnf} : Derives (.opt a) []
  | present {a : Abnf} {cs : List Char} : Derives a cs → Derives (.opt a) cs

/-! ## The rules -/

def alpha : Abnf := .alt (.range 0x41 0x5A) (.range 0x61 0x7A)

def digit : Abnf := .range 0x30 0x39

def hexdig : Abnf :=
  .alt digit (.alt (.text "A") (.alt (.text "B") (.alt (.text "C") (.alt (.text "D")
    (.alt (.text "E") (.text "F"))))))

def unreserved : Abnf :=
  .alt alpha (.alt digit (.alt (.text "-") (.alt (.text ".") (.alt (.text "_") (.text "~")))))

def pctEncoded : Abnf := .seq (.text "%") (.seq hexdig hexdig)

def vardefault : Abnf := .many 0 (.alt unreserved pctEncoded)

def varname : Abnf :=
  .seq (.alt alpha digit)
    (.many 0 (.alt alpha (.alt digit (.alt (.text ".") (.alt (.text "_") (.text "-"))))))

def var : Abnf := .seq varname (.opt (.seq (.text "=") vardefault))

def literal : Abnf := .many 1 (.alt (.range 0 0x7A) (.alt (.text "|") (.range 0x7E 0x10FFFF)))

def template : Abnf :=
  .many 0 (.alt literal (.seq (.text "\x7b") (.seq var (.text "\x7d"))))

/-! ## Expressions by cases -/

section
variable {a b : Abnf} {cs : List Char}

theorem derives_alt : Derives (.alt a b) cs ↔ Derives a cs ∨ Derives b cs := by
  refine ⟨fun h => ?_, fun h => h.elim .left .right⟩
  cases h with
  | left h => exact .inl h
  | right h => exact .inr h

theorem derives_seq : Derives (.seq a b) cs ↔ ∃ x y, cs = x ++ y ∧ Derives a x ∧ Derives b y := by
  refine ⟨fun h => ?_, fun ⟨x, y, hcs, hx, hy⟩ => hcs ▸ .seq hx hy⟩
  cases h with
  | seq hx hy => exact ⟨_, _, rfl, hx, hy⟩

theorem derives_opt : Derives (.opt a) cs ↔ cs = [] ∨ Derives a cs := by
  refine ⟨fun h => ?_, fun h => h.elim (fun hcs => hcs ▸ .absent) .present⟩
  cases h with
  | absent => exact .inl rfl
  | present h => exact .inr h

theorem derives_text {s : String} :
    Derives (.text s) cs ↔ cs.map Char.toLower = s.toList.map Char.toLower := by
  refine ⟨fun h => ?_, .text⟩
  cases h with
  | text h => exact h

theorem derives_many {least : Nat} : Derives (.many least a) cs ↔
    ∃ pieces : List (List Char), least ≤ pieces.length ∧ cs = pieces.flatten ∧
      ∀ piece ∈ pieces, Derives a piece := by
  constructor
  · intro h
    generalize he : Abnf.many least a = e at h
    induction h generalizing least with
    | done =>
      obtain ⟨rfl, -⟩ := Abnf.many.inj he
      exact ⟨[], Nat.le_refl _, rfl, by simp⟩
    | @more _ _ x _ hx _ _ ih =>
      obtain ⟨rfl, rfl⟩ := Abnf.many.inj he
      obtain ⟨pieces, hlen, rfl, hpieces⟩ := ih rfl
      refine ⟨x :: pieces, by rw [List.length_cons]; omega, rfl, ?_⟩
      simpa using ⟨hx, hpieces⟩
    | _ => cases he
  · intro ⟨pieces, hlen, hcs, hpieces⟩
    subst hcs
    induction pieces generalizing least with
    | nil =>
      obtain rfl : least = 0 := Nat.le_zero.1 hlen
      exact .done
    | cons piece pieces ih =>
      rw [List.length_cons] at hlen
      have hrest : ∀ piece ∈ pieces, Derives a piece :=
        fun p hp => hpieces p (List.mem_cons_of_mem _ hp)
      exact .more (hpieces piece List.mem_cons_self) (ih (by omega) hrest)

end

/-! ## Classes of characters -/

/-- An expression for one character of an ASCII class. -/
structure IsClass (e : Abnf) (p : Char → Bool) : Prop where
  derives_iff : ∀ cs, Derives e cs ↔ ∃ c, cs = [c] ∧ p c
  ascii : ∀ c, p c → c.toNat < 128

theorem isClass_range {low high : Nat} (h : high < 128) :
    IsClass (.range low high) fun c => decide (low ≤ c.toNat) && decide (c.toNat ≤ high) where
  derives_iff cs := by
    simp only [Bool.and_eq_true, decide_eq_true_eq]
    refine ⟨fun h => ?_, fun ⟨c, hcs, hlow, hhigh⟩ => hcs ▸ .range hlow hhigh⟩
    cases h with
    | range hlow hhigh => exact ⟨_, rfl, hlow, hhigh⟩
  ascii c hc := by
    simp only [Bool.and_eq_true, decide_eq_true_eq] at hc
    omega

theorem toLower_toNat_le (c : Char) : c.toNat < 128 ∨ c.toLower = c := by
  by_cases h : c.toNat < 128
  · exact .inl h
  · have hc : c.toNat = c.val.toNat := rfl
    refine .inr (dif_neg fun hupper => h ?_)
    have hle := UInt32.le_iff_toNat_le.1 hupper.2
    rw [show 'Z'.val.toNat = 90 from rfl] at hle
    omega

theorem isClass_text {s : String} {d : Char} (hs : s.toList = [d]) (hd : d.toLower.toNat < 128) :
    IsClass (.text s) fun c => c.toLower == d.toLower where
  derives_iff cs := by
    rw [derives_text, hs, List.map_singleton, List.map_eq_singleton_iff]
    simp only [beq_iff_eq]
  ascii c hc := by
    rcases toLower_toNat_le c with h | h
    · exact h
    · rw [beq_iff_eq, h] at hc
      exact hc ▸ hd

theorem IsClass.alt {a b : Abnf} {p q : Char → Bool} (ha : IsClass a p) (hb : IsClass b q) :
    IsClass (.alt a b) fun c => p c || q c where
  derives_iff cs := by
    rw [derives_alt, ha.derives_iff, hb.derives_iff]
    simp only [Bool.or_eq_true, and_or_left, exists_or]
  ascii c hc := by
    rcases Bool.or_eq_true_iff.1 hc with h | h
    · exact ha.ascii c h
    · exact hb.ascii c h

theorem IsClass.congr {e : Abnf} {p q : Char → Bool} (h : IsClass e p)
    (hq : ∀ c, q c → c.toNat < 128)
    (heq : ∀ n < 128, p (Char.ofNat n) = q (Char.ofNat n)) : IsClass e q := by
  have hpq : p = q := by
    funext c
    by_cases hc : c.toNat < 128
    · have hcode := heq c.toNat hc
      rwa [Char.ofNat_toNat] at hcode
    · rw [Bool.eq_false_iff.2 fun hp => hc (h.ascii c hp), Bool.eq_false_iff.2 fun hp => hc (hq c hp)]
  exact hpq ▸ h

theorem derives_many_class {e : Abnf} {p : Char → Bool}
    (h : ∀ cs, Derives e cs ↔ ∃ c, cs = [c] ∧ p c) {least : Nat} {cs : List Char} :
    Derives (.many least e) cs ↔ least ≤ cs.length ∧ ∀ c ∈ cs, p c := by
  rw [derives_many]
  constructor
  · intro ⟨pieces, hlen, hcs, hpieces⟩
    subst hcs
    have hsingle : pieces.flatten.length = pieces.length ∧ ∀ c ∈ pieces.flatten, p c := by
      clear hlen
      induction pieces with
      | nil => exact ⟨rfl, by simp⟩
      | cons piece pieces ih =>
        obtain ⟨c, rfl, hc⟩ := (h piece).1 (hpieces piece List.mem_cons_self)
        obtain ⟨hlen, hall⟩ := ih fun q hq => hpieces q (List.mem_cons_of_mem _ hq)
        rw [List.flatten_cons, List.singleton_append]
        exact ⟨by rw [List.length_cons, List.length_cons, hlen], List.forall_mem_cons.2 ⟨hc, hall⟩⟩
    exact ⟨hsingle.1 ▸ hlen, hsingle.2⟩
  · intro ⟨hlen, hcs⟩
    refine ⟨cs.map fun c => [c], by rwa [List.length_map], ?_, ?_⟩
    · exact (List.flatMap_singleton' cs).symm
    · intro piece hpiece
      obtain ⟨c, hc, rfl⟩ := List.mem_map.1 hpiece
      exact (h _).2 ⟨c, rfl, hcs c hc⟩

/-! ## The classes of the rules -/

theorem isClass_alpha : IsClass alpha Char.isAlpha :=
  ((isClass_range (by decide)).alt (isClass_range (by decide))).congr
    (fun c hc => isUnreserved_toNat_lt (by simp [isUnreserved_eq, Char.isAlphanum, hc])) (by decide)

theorem isClass_digit : IsClass digit Char.isDigit :=
  (isClass_range (by decide)).congr
    (fun c hc => isUnreserved_toNat_lt (by simp [isUnreserved_eq, Char.isAlphanum, hc])) (by decide)

theorem isClass_alphanum : IsClass (.alt alpha digit) Char.isAlphanum :=
  (isClass_alpha.alt isClass_digit).congr
    (fun c hc => isUnreserved_toNat_lt (by simp [isUnreserved_eq, hc])) (by decide)

theorem isClass_hexdig : IsClass hexdig isHexDigit := by
  have hletter : ∀ s d, s.toList = [d] → d.toLower.toNat < 128 →
      IsClass (.text s) fun c => c.toLower == d.toLower := fun _ _ => isClass_text
  refine (isClass_digit.alt ((hletter "A" 'A' rfl (by decide)).alt
    ((hletter "B" 'B' rfl (by decide)).alt ((hletter "C" 'C' rfl (by decide)).alt
      ((hletter "D" 'D' rfl (by decide)).alt ((hletter "E" 'E' rfl (by decide)).alt
        (hletter "F" 'F' rfl (by decide)))))))).congr ?_ (by decide)
  exact fun c hc => isHexDigit_toNat_lt hc

theorem isClass_mark {s : String} (d : Char) (hs : s.toList = [d])
    (hd : d.toNat < 128 ∧ d.toLower.toNat < 128)
    (hcase : ∀ n < 128, ((Char.ofNat n).toLower == d.toLower) = (Char.ofNat n == d)) :
    IsClass (.text s) (· == d) :=
  (isClass_text hs hd.2).congr (fun _ hc => beq_iff_eq.1 hc ▸ hd.1) hcase

theorem isClass_dash : IsClass (.text "-") (· == '-') :=
  isClass_mark '-' rfl (by decide) (by decide)

theorem isClass_dot : IsClass (.text ".") (· == '.') :=
  isClass_mark '.' rfl (by decide) (by decide)

theorem isClass_underscore : IsClass (.text "_") (· == '_') :=
  isClass_mark '_' rfl (by decide) (by decide)

theorem isClass_unreserved : IsClass unreserved isUnreserved :=
  (isClass_alpha.alt (isClass_digit.alt (isClass_dash.alt (isClass_dot.alt
    (isClass_underscore.alt (isClass_mark '~' rfl (by decide) (by decide))))))).congr
    (fun c hc => isUnreserved_toNat_lt hc) (by decide)

theorem isClass_nameChar :
    IsClass (.alt alpha (.alt digit (.alt (.text ".") (.alt (.text "_") (.text "-"))))) isNameChar :=
  (isClass_alpha.alt (isClass_digit.alt (isClass_dot.alt
    (isClass_underscore.alt isClass_dash)))).congr
    (fun c hc => isUnreserved_toNat_lt (isNameChar_isUnreserved hc)) (by decide)

theorem derives_mark {s : String} {d : Char} {cs : List Char} (h : IsClass (.text s) (· == d)) :
    Derives (.text s) cs ↔ cs = [d] := by
  rw [h.derives_iff]
  simp

/-! ## What the rules derive -/

theorem derives_varname {cs : List Char} : Derives varname cs ↔ IsName cs := by
  rw [varname, derives_seq]
  constructor
  · intro ⟨x, y, hcs, hx, hy⟩
    obtain ⟨c, rfl, hc⟩ := (isClass_alphanum.derives_iff x).1 hx
    exact hcs ▸ ⟨hc, ((derives_many_class isClass_nameChar.derives_iff).1 hy).2⟩
  · intro h
    match cs, h with
    | c :: cs, ⟨hc, hcs⟩ =>
      exact ⟨[c], cs, rfl, (isClass_alphanum.derives_iff _).2 ⟨c, rfl, hc⟩,
        (derives_many_class isClass_nameChar.derives_iff).2 ⟨Nat.zero_le _, hcs⟩⟩

theorem derives_unit {u : List Char} : Derives (.alt unreserved pctEncoded) u ↔ IsUnit u := by
  have hpercent : ∀ cs, Derives (.text "%") cs ↔ cs = [percentMark] :=
    fun _ => derives_mark (isClass_mark '%' rfl (by decide) (by decide))
  rw [derives_alt, pctEncoded, derives_seq]
  constructor
  · intro h
    rcases h with h | ⟨x, y, rfl, hx, hy⟩
    · obtain ⟨c, rfl, hc⟩ := (isClass_unreserved.derives_iff u).1 h
      exact .char hc
    · obtain ⟨y, z, rfl, hy, hz⟩ := derives_seq.1 hy
      obtain ⟨hi, rfl, hhi⟩ := (isClass_hexdig.derives_iff y).1 hy
      obtain ⟨lo, rfl, hlo⟩ := (isClass_hexdig.derives_iff z).1 hz
      rw [(hpercent x).1 hx]
      exact .triple hhi hlo
  · intro h
    cases h with
    | char hc => exact .inl ((isClass_unreserved.derives_iff _).2 ⟨_, rfl, hc⟩)
    | @triple hi lo hhi hlo =>
      have hdigits : Derives (.seq hexdig hexdig) ([hi] ++ [lo]) :=
        .seq ((isClass_hexdig.derives_iff _).2 ⟨hi, rfl, hhi⟩)
          ((isClass_hexdig.derives_iff _).2 ⟨lo, rfl, hlo⟩)
      exact .inr ⟨[percentMark], _, rfl, (hpercent _).2 rfl, hdigits⟩

theorem derives_vardefault {cs : List Char} : Derives vardefault cs ↔ IsEncoded cs := by
  rw [vardefault]
  constructor
  · intro h
    obtain ⟨pieces, -, rfl, hpieces⟩ := derives_many.1 h
    clear h
    induction pieces with
    | nil => exact isEncoded_nil
    | cons u pieces ih =>
      obtain ⟨hu, hrest⟩ := List.forall_mem_cons.1 hpieces
      exact (derives_unit.1 hu).isEncoded_append.2 (ih hrest)
  · intro h
    induction cs using unitRec with
    | nil => exact .done
    | unit u cs hu ih => exact .more (derives_unit.2 hu) (ih (hu.isEncoded_append.1 h))
    | other c cs hc hs => exact absurd ((isEncoded_cons hs).1 h).1 (by simp [hc])

theorem derives_literal {cs : List Char} : Derives literal cs ↔ cs ≠ [] ∧ IsPlain cs := by
  have hrange : ∀ low high cs, Derives (.range low high) cs ↔
      ∃ c : Char, cs = [c] ∧ low ≤ c.toNat ∧ c.toNat ≤ high := by
    intro low high cs
    refine ⟨fun h => ?_, fun ⟨c, hcs, hlow, hhigh⟩ => hcs ▸ .range hlow hhigh⟩
    cases h with
    | range hlow hhigh => exact ⟨_, rfl, hlow, hhigh⟩
  have hbar : ∀ cs, Derives (.text "|") cs ↔ cs = ['|'] :=
    fun _ => derives_mark (isClass_mark '|' rfl (by decide) (by decide))
  have hbrace : ∀ c : Char, (!isBrace c) = true ↔ c.toNat ≠ 0x7B ∧ c.toNat ≠ 0x7D := by
    intro c
    simp only [isBrace, Bool.not_or, Bool.and_eq_true, Bool.not_eq_true', beq_eq_false_iff_ne,
      Ne, ← Char.toNat_inj]
    exact Iff.rfl
  have hchar : ∀ cs, Derives (.alt (.range 0 0x7A) (.alt (.text "|") (.range 0x7E 0x10FFFF))) cs ↔
      ∃ c, cs = [c] ∧ (!isBrace c) = true := by
    intro cs
    rw [derives_alt, derives_alt, hrange, hbar, hrange]
    constructor
    · intro h
      rcases h with ⟨c, hcs, -, hc⟩ | hcs | ⟨c, hcs, hc, -⟩
      · exact ⟨c, hcs, (hbrace c).2 ⟨by omega, by omega⟩⟩
      · exact ⟨'|', hcs, by decide⟩
      · exact ⟨c, hcs, (hbrace c).2 ⟨by omega, by omega⟩⟩
    · intro ⟨c, hcs, hc⟩
      obtain ⟨hopen, hclose⟩ := (hbrace c).1 hc
      have hvalid : c.toNat < 0xD800 ∨ 0xDFFF < c.toNat ∧ c.toNat < 0x110000 := c.valid
      by_cases hlow : c.toNat ≤ 0x7A
      · exact .inl ⟨c, hcs, Nat.zero_le _, hlow⟩
      by_cases hhigh : 0x7E ≤ c.toNat
      · exact .inr (.inr ⟨c, hcs, hhigh, by omega⟩)
      · have hc : c = '|' := Char.toNat_inj.1 (show c.toNat = 0x7C by omega)
        exact .inr (.inl (hc ▸ hcs))
  rw [literal, derives_many_class hchar, IsPlain, ← List.length_pos_iff]
  exact Iff.rfl

end Abnf

end UriTemplate
