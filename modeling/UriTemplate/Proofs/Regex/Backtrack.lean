import UriTemplate.Proofs.Regex.Syntax

/-!
# Leftmost-first matching

The meaning of a regular expression for a backtracking search: `Regex.ways e p` lists every way to
match `e` from the cursor `p`, in the order in which the search tries them. A first alternative goes
before a second one and more repetitions before fewer. A search takes the first way from the leftmost
place that has one.

The ways through a sequence are those through its parts one after the other (`ways_all_append`).
-/

namespace UriTemplate

structure Cursor where
  place : Nat
  rest : List Char
  /-- What groups have captured, the last one first. -/
  groups : List (Nat × List Char) := []
  deriving DecidableEq, Repr

namespace Cursor

def skip (p : Cursor) (cs rest : List Char) : Cursor := { p with place := p.place + cs.length, rest }

/-- Behind one character of a class. -/
def next (p : Cursor) (accepts : Char → Bool) : List Cursor :=
  match p.rest with
  | [] => []
  | c :: cs => if accepts c then [p.skip [c] cs] else []

end Cursor

namespace Regex

/-- As many times as possible first; a repetition that reads nothing is not tried. -/
def more (step : Cursor → List Cursor) : Nat → Cursor → List Cursor
  | 0, p => [p]
  | n + 1, p =>
    ((step p).filter (fun q => q.rest.length < p.rest.length)).flatMap (more step n) ++ [p]

def repeated (step : Cursor → List Cursor) : Nat → Cursor → List Cursor
  | 0, p => [p]
  | n + 1, p => (step p).flatMap (repeated step n)

/-- Every way to match, the preferred one first. Each repetition reads a character at least, so the
rest bounds their number. -/
def ways : Regex → Cursor → List Cursor
  | empty, p => [p]
  | char c, p => p.next (· == c)
  | oneOf ranges, p => p.next fun c => ranges.any fun r => r.1 ≤ c && c ≤ r.2
  | start, p => if p.place = 0 then [p] else []
  | stop, p => if p.rest = [] then [p] else []
  | seq a b, p => (ways a p).flatMap (ways b)
  | either a b, p => ways a p ++ ways b p
  | plus a, p => (ways a p).flatMap fun q => more (ways a) q.rest.length q
  | times n a, p => repeated (ways a) n p
  | group index a, p =>
    (ways a p).map fun q =>
      { q with groups := (index, p.rest.take (q.place - p.place)) :: q.groups }

def find? (e : Regex) (cs : List Char) : Option Cursor :=
  (List.range (cs.length + 1)).findSome? fun i => (e.ways { place := i, rest := cs.drop i }).head?

/-- What the groups capture in the first match, if there is one. -/
def Program.captures? (p : Program) (cs : List Char) : Option (List (Option (List Char))) :=
  (p.regex.find? cs).map fun q => (List.range p.groups).map fun i => q.groups.lookup (i + 1)

/-! ## Sequences -/

theorem ways_all_cons (e : Regex) (es : List Regex) (p : Cursor) :
    ways (all (e :: es)) p = (ways e p).flatMap (ways (all es)) := rfl

theorem ways_all_append (es es' : List Regex) (p : Cursor) :
    ways (all (es ++ es')) p = (ways (all es) p).flatMap (ways (all es')) := by
  induction es generalizing p with
  | nil => simp [all, ways]
  | cons e es ih =>
    rw [List.cons_append, ways_all_cons, ways_all_cons, List.flatMap_assoc]
    exact congrArg (List.flatMap · _) (funext ih)

theorem ways_all_singleton (e : Regex) (p : Cursor) : ways (all [e]) p = ways e p := by
  rw [ways_all_cons]
  exact List.flatMap_singleton' _

theorem ways_chars (cs : List Char) (p : Cursor) : ways (all (cs.map .char)) p =
    match cs.isPrefixOf? p.rest with
    | some rest => [p.skip cs rest]
    | none => [] := by
  induction cs generalizing p with
  | nil => rfl
  | cons c cs ih =>
    rw [List.map_cons, ways_all_cons]
    obtain ⟨place, rest, groups⟩ := p
    cases rest with
    | nil => rfl
    | cons d rest =>
      have hcons : (c :: cs).isPrefixOf? (d :: rest) =
          if c == d then cs.isPrefixOf? rest else none := rfl
      simp only [ways, Cursor.next, hcons]
      by_cases hcd : c = d
      · subst hcd
        simp only [beq_self_eq_true, if_true, List.flatMap_cons, List.flatMap_nil,
          List.append_nil, ih, Cursor.skip]
        split <;> simp [Nat.add_assoc, Nat.add_comm 1]
      · simp [hcd, Ne.symm hcd]

/-- A search for an expression that is anchored at the start begins there or nowhere. -/
theorem find?_start (es : List Regex) (cs : List Char) :
    find? (all (.start :: es)) cs = ((all es).ways { place := 0, rest := cs }).head? := by
  have hfirst : (all (.start :: es)).ways { place := 0, rest := cs } =
      (all es).ways { place := 0, rest := cs } := by
    rw [ways_all_cons]
    simp [ways]
  have hother : ∀ i, (all (.start :: es)).ways { place := i + 1, rest := cs.drop (i + 1) } = [] := by
    intro i
    rw [ways_all_cons]
    simp [ways]
  rw [find?, List.range_succ_eq_map, List.findSome?_cons, List.drop_zero, hfirst]
  cases ((all es).ways { place := 0, rest := cs }).head? with
  | some q => rfl
  | none =>
    simp only [List.findSome?_map, List.findSome?_eq_none_iff, Function.comp_apply]
    intro i _
    rw [Nat.succ_eq_add_one, hother, List.head?_nil]

end Regex

end UriTemplate
