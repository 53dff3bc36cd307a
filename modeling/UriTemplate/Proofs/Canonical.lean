import UriTemplate.Proofs.Conversion

/-!
# The canonical form of a URI

Resolving a URI and expanding what it resolves to writes every value anew
(`Template.expand_resolve`): each variable becomes the decoded and encoded segment of the last
variable with its name (`Template.recoded`), and all else stays (`Template.fill`). A URI in which
nothing changes so is settled (`Template.IsSettled`).

With a separator between any two consecutive variables there is one way only to read a URI, so the
settled URIs are the fixed points, and writing the values anew a second time changes nothing.
-/

namespace UriTemplate

variable {α : Type} [Bindings α]

/-! ## Filling a template -/

namespace Template

/-- The text of a template with given segments in the place of its variables. -/
def fill (t : Template) (vs : List (List Char)) : List Char :=
  ((t.fields.zip vs).flatMap fun (f, v) => f.before.text.toList ++ v) ++ t.tail.text.toList

theorem Fills.eq_fill {t : Template} {P : List Char → Prop} {vs : List (List Char)}
    {cs : List Char} (h : t.Fills P vs cs) : cs = t.fill vs := by
  unfold Template.Fills at h
  unfold fill
  generalize t.fields = fs at h
  induction h with
  | nil => rfl
  | cons _ _ ih => rw [ih, List.zip_cons_cons, List.flatMap_cons, List.append_assoc,
      List.append_assoc]

theorem toList_expand_eq_fill (t : Template) (bindings : α) :
    (t.expand bindings).toList = t.fill (t.expansions bindings) := (t.fills_expand bindings).eq_fill

end Template

/-! ## Writing a segment anew -/

theorem map_eq_iff_forall_zip {β γ : Type} (f : β → γ) : ∀ {l : List β} {l' : List γ},
    l'.length = l.length → (l.map f = l' ↔ ∀ p ∈ l.zip l', f p.1 = p.2)
  | [], [], _ => by simp
  | a :: l, b :: l', h => by
    rw [List.map_cons, List.zip_cons_cons, List.forall_mem_cons, List.cons.injEq,
      map_eq_iff_forall_zip f (Nat.succ.inj h)]

/-- Decodes a segment and encodes what it stands for. -/
def recode (segment : List Char) : List Char := Percent.encodeChars (Percent.decodeChars segment)

theorem recode_recode (segment : List Char) : recode (recode segment) = recode segment := by
  rw [recode, recode, Percent.decodeChars_encodeChars]

namespace Template

/-- The segment of the last variable with a name. -/
def last? (t : Template) (vs : List (List Char)) (name : String) : Option (List Char) :=
  (t.names.zip vs).reverse.lookup name

/-- For each variable the segment of the last one with its name, written anew. -/
def recoded (t : Template) (vs : List (List Char)) : List (List Char) :=
  t.names.map fun name => ((t.last? vs name).map recode).getD []

/-- No segment changes when it is written anew, and variables with one name have one segment. -/
def IsSettled (t : Template) (vs : List (List Char)) : Prop :=
  (∀ v ∈ vs, recode v = v) ∧
    ∀ p ∈ t.names.zip vs, ∀ q ∈ t.names.zip vs, p.1 = q.1 → p.2 = q.2

variable {t : Template} {vs : List (List Char)}

theorem exists_last? {name : String} {v : List Char} (h : (name, v) ∈ t.names.zip vs) :
    ∃ last, t.last? vs name = some last ∧ (name, last) ∈ t.names.zip vs := by
  have hsome : ((t.names.zip vs).reverse.lookup name).isSome := by
    rw [List.lookup_isSome_iff]
    exact ⟨_, List.mem_reverse.2 h, beq_self_eq_true name⟩
  obtain ⟨last, hlast⟩ := Option.isSome_iff_exists.1 hsome
  obtain ⟨before, after, heq, -⟩ := List.lookup_eq_some_iff.1 hlast
  refine ⟨last, hlast, ?_⟩
  rw [← List.mem_reverse, heq]
  simp

theorem exists_name_of_mem (hlen : vs.length = t.names.length) {v : List Char} (h : v ∈ vs) :
    ∃ name, (name, v) ∈ t.names.zip vs := by
  rw [← List.map_snd_zip (Nat.le_of_eq hlen)] at h
  obtain ⟨⟨name, v'⟩, hmem, rfl⟩ := List.mem_map.1 h
  exact ⟨name, hmem⟩

/-- The settled segments are those that stay as they are. -/
theorem recoded_eq_self_iff (hlen : vs.length = t.names.length) :
    t.recoded vs = vs ↔ t.IsSettled vs := by
  rw [recoded, map_eq_iff_forall_zip _ hlen]
  constructor
  · intro h
    refine ⟨fun v hv => ?_, fun p hp q hq hname => ?_⟩
    · obtain ⟨name, hmem⟩ := exists_name_of_mem hlen hv
      obtain ⟨last, hlast, -⟩ := exists_last? hmem
      -- the segment is one that was written anew, and a second time changes nothing
      have hv : recode last = v := by simpa [hlast] using h _ hmem
      rw [← hv, recode_recode]
    · rw [← h p hp, ← h q hq, hname]
  · rintro ⟨hcode, hnames⟩ ⟨name, v⟩ hmem
    obtain ⟨last, hlast, hmem'⟩ := exists_last? hmem
    have hsame : last = v := hnames _ hmem' _ hmem rfl
    simp [hlast, hsame, hcode v (List.of_mem_zip hmem).2]

/-! ## What a resolution expands to -/

/-- Under the bindings of a resolution no default comes in: each variable becomes the segment of the
last one with its name, written anew. -/
theorem expansions_ofSegments (hlen : vs.length = t.names.length) (hvalues : ∀ v ∈ vs, IsValue v) :
    t.expansions (Resolution.ofSegments t vs) = t.recoded vs := by
  rw [expansions, recoded, names, List.map_map]
  refine List.map_congr_left fun v hv => ?_
  obtain ⟨text, htext, hne⟩ := isBoundBy_ofSegments hlen hvalues _ (mem_names_of_mem_slots hv)
  have hget : (t.last? vs v.name.text).map Resolution.valueOf = some text :=
    (Resolution.get?_ofSegments t vs _).symm.trans htext
  obtain ⟨last, hlast, rfl⟩ := Option.map_eq_some_iff.1 hget
  rw [Variable.expansion_of_bound htext hne, Function.comp_apply, hlast, Percent.toList_encode,
    Resolution.valueOf, String.toList_ofList]
  rfl

theorem toList_expand_ofSegments (hlen : vs.length = t.names.length)
    (hvalues : ∀ v ∈ vs, IsValue v) :
    (t.expand (Resolution.ofSegments t vs)).toList = t.fill (t.recoded vs) := by
  rw [toList_expand_eq_fill, expansions_ofSegments hlen hvalues]

/-- Of a separated template, a URI that stays as it is has settled segments: there is no other way
to read it. -/
theorem isSettled_of_expand_eq (hsep : t.IsSeparated) {cs : List Char} (h : t.Fills IsValue vs cs)
    (heq : (t.expand (Resolution.ofSegments t vs)).toList = cs) : t.IsSettled vs := by
  apply (recoded_eq_self_iff h.length_names).1
  have hfills := t.fills_expand (Resolution.ofSegments t vs)
  rw [heq, expansions_ofSegments h.length_names h.forall] at hfills
  exact (Template.Fills.unique hsep (UriTemplate.Fills.mono h fun _ _ hv => hv.2) hfills).symm

/-- Resolving the expansion of bindings that bind all names and expanding again changes nothing. -/
theorem expand_resolve_expand (hsep : t.IsSeparated) {bindings : α} (h : t.IsBoundBy bindings) :
    t.expand (t.resolve (t.expand bindings)).value = t.expand bindings := by
  refine expand_congr fun name hname => ?_
  exact congrArg (Option.filter _) (get?_resolve_expand hsep h hname)

/-- Resolving and expanding. Each variable's segment is replaced by the segment of the last variable
with its name, decoded and encoded; so a candidate with settled segments comes back. If the template
is separated, no other candidate does, and doing the same once more changes nothing. -/
theorem expand_resolve {t : Template} {candidate : String} (h : t.accepts candidate = true) :
    ∃ vs, t.segments? candidate.toList = some vs ∧ vs.length = t.slots.length ∧
      candidate.toList = t.fill vs ∧
      (t.expand (t.resolve candidate).value).toList = t.fill (t.recoded vs) ∧
      (t.IsSettled vs → t.expand (t.resolve candidate).value = candidate) ∧
      (t.IsSeparated →
        (t.expand (t.resolve candidate).value = candidate → t.IsSettled vs) ∧
        t.expand (t.resolve (t.expand (t.resolve candidate).value)).value =
          t.expand (t.resolve candidate).value) := by
  obtain ⟨vs, hvs⟩ := Option.isSome_iff_exists.1 h
  obtain ⟨hfills, -⟩ := segments?_eq_some hvs
  have hlen := hfills.length_names
  have hrecoded := toList_expand_ofSegments hlen hfills.forall
  have hbound := isBoundBy_resolve h
  rw [value_resolve_of_some hvs] at hbound ⊢
  refine ⟨vs, hvs, ?_, hfills.eq_fill, hrecoded, fun hsettled => ?_, fun hsep => ⟨fun heq => ?_, ?_⟩⟩
  · rw [hfills.length, slots, List.length_map]
  · apply String.toList_inj.1
    rw [hrecoded, (recoded_eq_self_iff hlen).2 hsettled, hfills.eq_fill]
  · exact isSettled_of_expand_eq hsep hfills (congrArg String.toList heq)
  · exact expand_resolve_expand hsep hbound

theorem expand_resolve_query :
    query.IsSeparated ∧ query.accepts "?t=a&u=%2f%41" = true ∧
    (query.expand (query.resolve "?t=a&u=%2f%41").value).toList =
      query.fill [['%', '2', 'F', 'A'], ['%', '2', 'F', 'A']] ∧
    query.IsSettled [['%', '2', 'F', 'A'], ['%', '2', 'F', 'A']] ∧
    query.expand (query.resolve "?t=%2FA&u=%2FA").value = "?t=%2FA&u=%2FA" ∧
    query.expand (query.resolve (query.expand (query.resolve "?t=a&u=%2f%41").value)).value =
      query.expand (query.resolve "?t=a&u=%2f%41").value := by
  have hsep : query.IsSeparated := by decide
  have hvs : query.segments? "?t=a&u=%2f%41".toList =
      some [['a'], ['%', '2', 'f', '%', '4', '1']] := by decide +kernel
  have hws : query.segments? "?t=%2FA&u=%2FA".toList =
      some [['%', '2', 'F', 'A'], ['%', '2', 'F', 'A']] := by decide +kernel
  have haccepts : query.accepts "?t=a&u=%2f%41" = true := by rw [accepts, hvs]; rfl
  obtain ⟨vs, hvs', -, -, hrecoded, -, hseparated⟩ := expand_resolve haccepts
  obtain ⟨ws, hws', -, -, -, hback, -⟩ :=
    expand_resolve (show query.accepts "?t=%2FA&u=%2FA" = true by rw [accepts, hws]; rfl)
  obtain rfl := Option.some.inj (hvs.symm.trans hvs')
  obtain rfl := Option.some.inj (hws.symm.trans hws')
  have hsettled : query.IsSettled [['%', '2', 'F', 'A'], ['%', '2', 'F', 'A']] :=
    (recoded_eq_self_iff rfl).1 rfl
  exact ⟨hsep, haccepts, hrecoded.trans rfl, hsettled, hback hsettled, (hseparated hsep).2⟩

end Template

end UriTemplate
