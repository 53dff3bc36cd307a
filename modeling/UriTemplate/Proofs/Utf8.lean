import UriTemplate.Utf8

/-!
# Reading UTF-8

* `Utf8.read_utf8Encode`: the bytes of a text are read as that text. The invariant of the run is that
  between two characters no sequence is under way; one character keeps it (`push_utf8EncodeChar`),
  with one lemma for each length of its encoding.
* `Utf8.read_eq_nil`: no bytes at all are read as nothing. `Utf8.length_finish_push`: a byte adds one
  character at most.
* `Utf8.read_append_char`: a character is read as itself between any two runs of bytes, and cuts the
  reading in two. The invariant is `Reader.IsSound`: only the bytes `80..BF` continue a sequence.
-/

namespace UriTemplate
namespace Utf8

/-! ## Lead bytes -/

theorem lead_two {v : Nat} (hlo : 0x80 ≤ v) (hhi : v ≤ 0x7FF) :
    lead (v / 64 + 0xC0) = .opens ⟨v / 64, 1, 0x80, 0xBF⟩ := by
  unfold lead
  rw [if_neg (by omega), if_neg (by omega), if_pos (by omega), Nat.add_sub_cancel]

/-- The first of three bytes narrows the range of the second one to what encodings have there. -/
theorem lead_three {v : Nat} (hlo : 0x800 ≤ v) (hhi : v ≤ 0xFFFF) (hv : v < 0xD800 ∨ 0xDFFF < v) :
    ∃ low high, lead (v / 4096 + 0xE0) = .opens ⟨v / 4096, 2, low, high⟩ ∧
      low ≤ v / 64 % 64 + 0x80 ∧ v / 64 % 64 + 0x80 ≤ high := by
  unfold lead
  rw [if_neg (by omega), if_neg (by omega), if_neg (by omega)]
  by_cases h0 : v / 4096 = 0
  · rw [if_pos (by omega), h0]
    exact ⟨_, _, rfl, by omega, by omega⟩
  rw [if_neg (by omega)]
  by_cases hd : v / 4096 = 0xD
  · rw [if_pos (by omega), hd]
    exact ⟨_, _, rfl, by omega, by omega⟩
  · rw [if_neg (by omega), if_pos (by omega), Nat.add_sub_cancel]
    exact ⟨_, _, rfl, by omega, by omega⟩

theorem lead_four {v : Nat} (hlo : 0x10000 ≤ v) (hhi : v ≤ 0x10FFFF) :
    ∃ low high, lead (v / 262144 + 0xF0) = .opens ⟨v / 262144, 3, low, high⟩ ∧
      low ≤ v / 4096 % 64 + 0x80 ∧ v / 4096 % 64 + 0x80 ≤ high := by
  unfold lead
  rw [if_neg (by omega), if_neg (by omega), if_neg (by omega), if_neg (by omega),
    if_neg (by omega), if_neg (by omega)]
  by_cases h0 : v / 262144 = 0
  · rw [if_pos (by omega), h0]
    exact ⟨_, _, rfl, by omega, by omega⟩
  rw [if_neg (by omega)]
  by_cases h4 : v / 262144 = 4
  · rw [if_neg (by omega), if_pos (by omega), h4]
    exact ⟨_, _, rfl, by omega, by omega⟩
  · rw [if_pos (by omega), Nat.add_sub_cancel]
    exact ⟨_, _, rfl, by omega, by omega⟩

/-! ## One byte -/

theorem push_start {done : List Char} {n : Nat} (hn : n < 256) :
    Reader.push ⟨done, none⟩ (UInt8.ofNat n) = startAt done n := by
  simp [Reader.push, Nat.mod_eq_of_lt hn]

theorem push_first {done : List Char} {n : Nat} {p : Pending} (hn : n < 256)
    (h : lead n = .opens p) : Reader.push ⟨done, none⟩ (UInt8.ofNat n) = ⟨done, some p⟩ := by
  rw [push_start hn, startAt, h]

theorem push_last {done : List Char} {code low high n : Nat} (hn : n < 64)
    (hlow : low ≤ n + 0x80) (hhigh : n + 0x80 ≤ high) :
    Reader.push ⟨done, some ⟨code, 1, low, high⟩⟩ (UInt8.ofNat (n + 0x80)) =
      ⟨Char.ofNat (code * 64 + n) :: done, none⟩ := by
  have hb : (UInt8.ofNat (n + 0x80)).toNat = n + 0x80 := by
    rw [UInt8.toNat_ofNat', Nat.mod_eq_of_lt (by omega)]
  simp only [Reader.push, hb, hlow, hhigh, and_self, if_true, Nat.le_refl]
  rw [show (n + 0x80) % 64 = n by omega]

theorem push_more {done : List Char} {code owed low high n : Nat} (hn : n < 64)
    (hlow : low ≤ n + 0x80) (hhigh : n + 0x80 ≤ high) :
    Reader.push ⟨done, some ⟨code, owed + 2, low, high⟩⟩ (UInt8.ofNat (n + 0x80)) =
      ⟨done, some ⟨code * 64 + n, owed + 1, 0x80, 0xBF⟩⟩ := by
  have hb : (UInt8.ofNat (n + 0x80)).toNat = n + 0x80 := by
    rw [UInt8.toNat_ofNat', Nat.mod_eq_of_lt (by omega)]
  simp only [Reader.push, hb, hlow, hhigh, and_self, if_true]
  rw [if_neg (by omega), show (n + 0x80) % 64 = n by omega,
    show owed + 2 - 1 = owed + 1 by omega]

/-! ## One character -/

theorem push_utf8EncodeChar (done : List Char) (c : Char) :
    (String.utf8EncodeChar c).foldl Reader.push ⟨done, none⟩ = ⟨c :: done, none⟩ := by
  have hvalid : c.val.toNat < 0xD800 ∨ 0xDFFF < c.val.toNat ∧ c.val.toNat < 0x110000 := c.valid
  have hchar : Char.ofNat c.val.toNat = c := Char.ofNat_toNat c
  unfold String.utf8EncodeChar
  generalize c.val.toNat = v at hvalid hchar
  simp only
  split
  · rename_i h1
    simp only [List.foldl_cons, List.foldl_nil]
    rw [push_start (by omega), startAt, lead, if_pos (by omega), hchar]
  split
  · rename_i h1 h2
    simp only [List.foldl_cons, List.foldl_nil]
    rw [show v / 64 % 32 = v / 64 by omega, push_first (by omega) (lead_two (by omega) h2),
      push_last (by omega) (by omega) (by omega), show v / 64 * 64 + v % 64 = v by omega, hchar]
  split
  · rename_i h1 h2 h3
    obtain ⟨low, high, hlead, hlow, hhigh⟩ := lead_three (v := v) (by omega) h3 (by omega)
    simp only [List.foldl_cons, List.foldl_nil]
    rw [show v / 4096 % 16 = v / 4096 by omega, push_first (by omega) hlead,
      push_more (by omega) hlow hhigh, push_last (by omega) (by omega) (by omega),
      show (v / 4096 * 64 + v / 64 % 64) * 64 + v % 64 = v by omega, hchar]
  · rename_i h1 h2 h3
    obtain ⟨low, high, hlead, hlow, hhigh⟩ := lead_four (v := v) (by omega) (by omega)
    simp only [List.foldl_cons, List.foldl_nil]
    rw [show v / 262144 % 8 = v / 262144 by omega, push_first (by omega) hlead,
      push_more (by omega) hlow hhigh, push_more (by omega) (by omega) (by omega),
      push_last (by omega) (by omega) (by omega),
      show ((v / 262144 * 64 + v / 4096 % 64) * 64 + v / 64 % 64) * 64 + v % 64 = v by omega,
      hchar]

/-! ## A whole text -/

theorem push_utf8Encode (done cs : List Char) :
    (cs.flatMap String.utf8EncodeChar).foldl Reader.push ⟨done, none⟩ =
      ⟨cs.reverse ++ done, none⟩ := by
  induction cs generalizing done with
  | nil => rfl
  | cons c cs ih =>
    rw [List.flatMap_cons, List.foldl_append, push_utf8EncodeChar, ih]
    simp

theorem read_utf8Encode (cs : List Char) : read (cs.flatMap String.utf8EncodeChar) = cs := by
  rw [read, show ({} : Reader) = ⟨[], none⟩ from rfl, push_utf8Encode]
  simp [Reader.finish]

/-! ## The number of characters -/

theorem length_finish_startAt (done : List Char) (b : Nat) :
    (startAt done b).finish.length = done.length + 1 := by
  unfold startAt
  split <;> simp [Reader.finish]

theorem length_finish_push (r : Reader) (b : UInt8) :
    (r.push b).finish.length ≤ r.finish.length + 1 := by
  obtain ⟨done, pending⟩ := r
  cases pending with
  | none =>
    simp only [Reader.push, length_finish_startAt]
    simp [Reader.finish]
  | some p =>
    simp only [Reader.push]
    split
    · split <;> simp [Reader.finish]
    · rw [length_finish_startAt]
      simp [Reader.finish]

theorem finish_startAt_ne_nil (done : List Char) (b : Nat) : (startAt done b).finish ≠ [] :=
  List.ne_nil_of_length_pos (by rw [length_finish_startAt]; omega)

/-- After a byte there is a character, or a sequence under way that will be one. -/
theorem finish_push_ne_nil (r : Reader) (b : UInt8) : (r.push b).finish ≠ [] := by
  obtain ⟨done, pending⟩ := r
  cases pending with
  | none => exact finish_startAt_ne_nil done b.toNat
  | some p =>
    simp only [Reader.push]
    by_cases hrange : p.low ≤ b.toNat ∧ b.toNat ≤ p.high
    · rw [if_pos hrange]
      split <;> simp [Reader.finish]
    · rw [if_neg hrange]
      exact finish_startAt_ne_nil _ _

theorem read_eq_nil {bytes : List UInt8} : read bytes = [] ↔ bytes = [] := by
  refine ⟨fun h => ?_, fun h => ?_⟩
  · rcases List.eq_nil_or_concat bytes with rfl | ⟨before, b, rfl⟩
    · rfl
    · rw [List.concat_eq_append, read_append] at h
      exact absurd h (finish_push_ne_nil _ b)
  · rw [h, read_nil]

/-! ## From any state

A sequence under way is continued by the bytes `80..BF` only, so the first byte of a character always
breaks it off: what a character is read as does not depend on the bytes before it. -/

/-- The range of the next byte of a sequence lies among the bytes that continue sequences. -/
def Pending.IsSound (p : Pending) : Prop := 0x80 ≤ p.low ∧ p.high ≤ 0xBF

def Reader.IsSound (r : Reader) : Prop := ∀ p ∈ r.pending, p.IsSound

theorem isSound_start (done : List Char) : Reader.IsSound ⟨done, none⟩ := nofun

theorem isSound_of_lead {b : Nat} {p : Pending} (h : lead b = .opens p) : p.IsSound := by
  unfold lead at h
  repeat' split at h
  all_goals simp only [Lead.opens.injEq, reduceCtorEq] at h
  all_goals
    rw [← h]
    simp [Pending.IsSound]

theorem isSound_startAt (done : List Char) (b : Nat) : (startAt done b).IsSound := by
  unfold startAt
  split
  · exact isSound_start _
  · rename_i p hlead
    intro q hq
    cases hq
    exact isSound_of_lead hlead
  · exact isSound_start _

theorem Reader.IsSound.push {r : Reader} (h : r.IsSound) (b : UInt8) : (r.push b).IsSound := by
  obtain ⟨done, pending⟩ := r
  cases pending with
  | none => exact isSound_startAt done b.toNat
  | some p =>
    simp only [Reader.push]
    split
    · split
      · exact isSound_start _
      · intro q hq
        cases hq
        exact ⟨Nat.le_refl _, Nat.le_refl _⟩
    · exact isSound_startAt _ _

/-- A byte that continues no sequence is read at the start of one, wherever the reader stands. -/
theorem Reader.IsSound.push_eq {r : Reader} (h : r.IsSound) {b : UInt8}
    (hb : b.toNat < 0x80 ∨ 0xBF < b.toNat) : r.push b = startAt r.finish.reverse b.toNat := by
  obtain ⟨done, pending⟩ := r
  cases pending with
  | none => simp [Reader.push, Reader.finish]
  | some p =>
    obtain ⟨hlow, hhigh⟩ := h p rfl
    have hrange : ¬(p.low ≤ b.toNat ∧ b.toNat ≤ p.high) := by omega
    simp [Reader.push, Reader.finish, hrange]

theorem utf8EncodeChar_front (c : Char) : ∃ b bs, String.utf8EncodeChar c = b :: bs ∧
    (b.toNat < 0x80 ∨ 0xBF < b.toNat) := by
  have hvalid : c.val.toNat < 0xD800 ∨ 0xDFFF < c.val.toNat ∧ c.val.toNat < 0x110000 := c.valid
  unfold String.utf8EncodeChar
  generalize c.val.toNat = v at hvalid
  simp only
  repeat' split
  all_goals
    refine ⟨_, _, rfl, ?_⟩
    rw [UInt8.toNat_ofNat', Nat.mod_eq_of_lt (by omega)]
    omega

theorem Reader.IsSound.push_utf8EncodeChar {r : Reader} (h : r.IsSound) (c : Char) :
    (String.utf8EncodeChar c).foldl Reader.push r = ⟨c :: r.finish.reverse, none⟩ := by
  rw [← Utf8.push_utf8EncodeChar r.finish.reverse c]
  obtain ⟨b, bs, hbytes, hb⟩ := utf8EncodeChar_front c
  rw [hbytes, List.foldl_cons, List.foldl_cons, h.push_eq hb]
  rfl

theorem Reader.IsSound.foldl {r : Reader} (h : r.IsSound) (bytes : List UInt8) :
    (bytes.foldl Reader.push r).IsSound := by
  induction bytes generalizing r with
  | nil => exact h
  | cons b bytes ih => exact ih (h.push b)

/-! ## What is read stays -/

/-- The same state with older characters behind those read. -/
def Reader.after (older : List Char) (r : Reader) : Reader := ⟨r.done ++ older, r.pending⟩

theorem startAt_after (older done : List Char) (b : Nat) :
    startAt (done ++ older) b = (startAt done b).after older := by
  unfold startAt
  split <;> rfl

theorem push_after (older : List Char) (r : Reader) (b : UInt8) :
    (r.after older).push b = (r.push b).after older := by
  obtain ⟨done, pending⟩ := r
  cases pending with
  | none => exact startAt_after older done b.toNat
  | some p =>
    simp only [Reader.push, Reader.after]
    split
    · split <;> rfl
    · exact startAt_after older (replacement :: done) b.toNat

theorem foldl_push_after (older : List Char) (r : Reader) (bytes : List UInt8) :
    bytes.foldl Reader.push (r.after older) = (bytes.foldl Reader.push r).after older := by
  induction bytes generalizing r with
  | nil => rfl
  | cons b bytes ih => rw [List.foldl_cons, List.foldl_cons, push_after, ih]

theorem finish_after (older : List Char) (r : Reader) :
    (r.after older).finish = older.reverse ++ r.finish := by
  obtain ⟨done, pending⟩ := r
  cases pending <;> simp [Reader.after, Reader.finish]

theorem read_append_char (a b : List UInt8) (c : Char) :
    read (a ++ String.utf8EncodeChar c ++ b) = read a ++ c :: read b := by
  have hsound : (a.foldl Reader.push {}).IsSound := (isSound_start []).foldl a
  have hstart : (⟨c :: (read a).reverse, none⟩ : Reader) =
      Reader.after (c :: (read a).reverse) {} := rfl
  rw [read, List.foldl_append, List.foldl_append, hsound.push_utf8EncodeChar, ← read, hstart,
    foldl_push_after, finish_after, ← read]
  simp

end Utf8
end UriTemplate
