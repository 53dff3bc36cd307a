import UriTemplate.Proofs.Conversion

/-!
# Sources of bindings

Which kind of source the values come from makes no difference (`Bindings.sources_interchangeable`).
Three facts carry this:

* **Maps.** In a list the first pair with a name counts, in a map the last one put into it. So a map
  filled from the end of a list answers as the list does (`Bindings.valueOf_ofPairs_reverse`).
* **Lists.** A look-up is blind to the order of pairs with distinct names
  (`Bindings.Reordered.valueOf_eq`), to what comes after the first pair with the name and to the
  pairs with other names (`Bindings.valueOf_append`, `Bindings.valueOf_filter`).
* **Empty texts.** A name bound to the empty text is present, so it hides later pairs, yet it
  expands as a missing one (`Bindings.Agree.nonEmpty?_eq`).
-/

namespace UriTemplate

variable {α β : Type} [Bindings α] [Bindings β]

theorem Variable.value_congr {v : Variable} {bindings : α} {others : β}
    (h : Bindings.nonEmpty? bindings v.name.text = Bindings.nonEmpty? others v.name.text) :
    v.value bindings = v.value others := by
  rw [value, value, h]

namespace Bindings

/-! ## Sources that agree -/

/-- Two sources with the same answers, which give every template the same expansion and every
variable the same value. -/
structure Interchangeable (bindings : α) (others : β) : Prop where
  valueOf_eq : ∀ name, valueOf bindings name = valueOf others name
  expand_eq : ∀ t : Template, t.expand bindings = t.expand others
  value_eq : ∀ v : Variable, v.value bindings = v.value others

/-- Nothing is bound to a name, or the empty text is. -/
def IsMissing (bindings : α) (name : String) : Prop :=
  valueOf bindings name = none ∨ valueOf bindings name = some ""

/-- Two sources have the same text for a name, or the name is missing in both. -/
def Agree (bindings : α) (others : β) (name : String) : Prop :=
  valueOf bindings name = valueOf others name ∨ IsMissing bindings name ∧ IsMissing others name

instance (bindings : α) (name : String) : Decidable (IsMissing bindings name) :=
  inferInstanceAs (Decidable (_ ∨ _))

instance (bindings : α) (others : β) (name : String) : Decidable (Agree bindings others name) :=
  inferInstanceAs (Decidable (_ ∨ _ ∧ _))

theorem IsMissing.nonEmpty?_eq_none {bindings : α} {name : String} (h : IsMissing bindings name) :
    nonEmpty? bindings name = none := by
  rcases h with h | h <;> rw [nonEmpty?, h] <;> rfl

theorem Agree.nonEmpty?_eq {bindings : α} {others : β} {name : String}
    (h : Agree bindings others name) : nonEmpty? bindings name = nonEmpty? others name := by
  rcases h with heq | ⟨hleft, hright⟩
  · rw [nonEmpty?, nonEmpty?, heq]
  · rw [hleft.nonEmpty?_eq_none, hright.nonEmpty?_eq_none]

theorem expand_eq_of_agree {t : Template} {bindings : α} {others : β}
    (h : ∀ name ∈ t.names, Agree bindings others name) : t.expand bindings = t.expand others :=
  Template.expand_congr fun name hname => (h name hname).nonEmpty?_eq

theorem Interchangeable.of_valueOf {bindings : α} {others : β}
    (h : ∀ name, valueOf bindings name = valueOf others name) : Interchangeable bindings others where
  valueOf_eq := h
  expand_eq _ := expand_eq_of_agree fun name _ => .inl (h name)
  value_eq v := Variable.value_congr (Agree.nonEmpty?_eq (.inl (h v.name.text)))

/-! ## Lists of pairs -/

theorem valueOf_cons (pair : String × String) (pairs : List (String × String)) (name : String) :
    valueOf (pair :: pairs) name =
      if pair.1 = name then some pair.2 else valueOf pairs name := by
  obtain ⟨key, text⟩ := pair
  show List.lookup name ((key, text) :: pairs) = if key = name then some text else pairs.lookup name
  by_cases h : key = name
  · rw [if_pos h, h, List.lookup_cons_self]
  · rw [if_neg h, List.lookup_cons, beq_false_of_ne (Ne.symm h)]

/-- Pairs appended under names that occur before change nothing. -/
theorem valueOf_append {pairs more : List (String × String)}
    (h : ∀ pair ∈ more, pair.1 ∈ pairs.map Prod.fst) (name : String) :
    valueOf (pairs ++ more) name = valueOf pairs name := by
  show (pairs ++ more).lookup name = pairs.lookup name
  rw [List.lookup_append]
  cases hpairs : pairs.lookup name with
  | some text => rfl
  | none =>
    have hmore : more.lookup name = none := by
      rw [List.lookup_eq_none_iff] at hpairs ⊢
      intro pair hpair
      obtain ⟨first, hfirst, heq⟩ := List.mem_map.1 (h pair hpair)
      rw [← heq]
      exact hpairs first hfirst
    rw [hmore, Option.or_none]

theorem valueOf_filter {names : List String} {name : String} (hname : name ∈ names)
    (pairs : List (String × String)) :
    valueOf (pairs.filter (·.1 ∈ names)) name = valueOf pairs name := by
  induction pairs with
  | nil => rfl
  | cons pair pairs ih =>
    rw [valueOf_cons, List.filter_cons]
    by_cases hpair : pair.1 ∈ names
    · rw [if_pos (by simpa using hpair), valueOf_cons, ih]
    · have hne : pair.1 ≠ name := fun heq => hpair (heq ▸ hname)
      rw [if_neg (by simpa using hpair), if_neg hne, ih]

/-- Pairs moved past neighbours of other names, any number of times. -/
inductive Reordered : List (String × String) → List (String × String) → Prop
  | nil : Reordered [] []
  | cons (pair : String × String) {pairs others : List (String × String)} :
      Reordered pairs others → Reordered (pair :: pairs) (pair :: others)
  | swap {first second : String × String} (h : first.1 ≠ second.1)
      (pairs : List (String × String)) :
      Reordered (first :: second :: pairs) (second :: first :: pairs)
  | trans {pairs between others : List (String × String)} :
      Reordered pairs between → Reordered between others → Reordered pairs others

namespace Reordered

variable {pairs others : List (String × String)}

theorem valueOf_eq (h : Reordered pairs others) (name : String) :
    valueOf pairs name = valueOf others name := by
  induction h with
  | nil => rfl
  | cons pair _ ih => rw [valueOf_cons, valueOf_cons, ih]
  | @swap first second hne pairs =>
    rw [valueOf_cons, valueOf_cons, valueOf_cons, valueOf_cons]
    by_cases hfirst : first.1 = name
    · have hsecond : second.1 ≠ name := fun heq => hne (hfirst.trans heq.symm)
      rw [if_pos hfirst, if_neg hsecond, if_pos hfirst]
    · rw [if_neg hfirst, if_neg hfirst]
  | trans _ _ ih₁ ih₂ => rw [ih₁, ih₂]

/-- Pairs whose names are all distinct can be put into any order. -/
theorem of_perm (h : pairs.Perm others) (hnames : (pairs.map Prod.fst).Nodup) :
    Reordered pairs others := by
  induction h with
  | nil => exact .nil
  | cons pair _ ih =>
    rw [List.map_cons, List.nodup_cons] at hnames
    exact .cons pair (ih hnames.2)
  | swap first second pairs =>
    rw [List.map_cons, List.map_cons, List.nodup_cons, List.mem_cons, not_or] at hnames
    exact .swap hnames.1.1 pairs
  | trans hperm _ ih₁ ih₂ => exact .trans (ih₁ hnames) (ih₂ ((hperm.map Prod.fst).nodup hnames))

end Reordered

theorem valueOf_of_mem {pairs : List (String × String)} {name text : String}
    (hnames : (pairs.map Prod.fst).Nodup) (h : (name, text) ∈ pairs) :
    valueOf pairs name = some text := by
  -- with distinct names the pair can be moved to the front
  rw [(Reordered.of_perm (List.perm_cons_erase h) hnames).valueOf_eq, valueOf_cons, if_pos rfl]

/-! ## Maps -/

/-- An empty map binds nothing, and a pair put into a map takes the place of any text that its name
had there. -/
class LawfulMap (μ : Type) [Bindings μ] [EmptyCollection μ] [Insert (String × String) μ] :
    Prop where
  valueOf_empty : ∀ name, valueOf (∅ : μ) name = none
  valueOf_insert : ∀ (pair : String × String) (map : μ) name,
    valueOf (insert pair map) name = if pair.1 = name then some pair.2 else valueOf map name

instance : LawfulMap (Std.HashMap String String) where
  valueOf_empty _ := Std.HashMap.getElem?_empty
  valueOf_insert pair map name := by
    show (map.insert pair.1 pair.2)[name]? = if pair.1 = name then some pair.2 else map[name]?
    simp only [Std.HashMap.getElem?_insert, beq_iff_eq]

instance : LawfulMap (Std.TreeMap String String) where
  valueOf_empty _ := Std.TreeMap.getElem?_emptyc
  valueOf_insert pair map name := by
    show (map.insert pair.1 pair.2)[name]? = if pair.1 = name then some pair.2 else map[name]?
    simp only [Std.TreeMap.getElem?_insert, Std.LawfulEqCmp.compare_eq_iff_eq]

/-- The map that pairs are put into, from the first to the last. -/
def ofPairs (μ : Type) [EmptyCollection μ] [Insert (String × String) μ]
    (pairs : List (String × String)) : μ := pairs.foldl (fun map pair => insert pair map) ∅

section
variable {μ : Type} [Bindings μ] [EmptyCollection μ] [Insert (String × String) μ] [LawfulMap μ]

/-- A map that is filled from the end of a list answers as the list. -/
theorem valueOf_ofPairs_reverse (pairs : List (String × String)) (name : String) :
    valueOf (ofPairs μ pairs.reverse) name = valueOf pairs name := by
  rw [ofPairs, List.foldl_reverse]
  -- the front pair is put in last, and it is also the first one that the list is searched for
  induction pairs with
  | nil => exact LawfulMap.valueOf_empty name
  | cons pair pairs ih => rw [List.foldr_cons, LawfulMap.valueOf_insert, ih, valueOf_cons]

theorem expand_insert {t : Template} (pair : String × String) (h : pair.1 ∉ t.names) (map : μ) :
    t.expand (insert pair map) = t.expand map := by
  refine expand_eq_of_agree fun name hname => .inl ?_
  have hne : pair.1 ≠ name := fun heq => h (heq ▸ hname)
  rw [LawfulMap.valueOf_insert, if_neg hne]

end

/-! ## Maps as lists -/

theorem nodup_names_toList (map : Std.TreeMap String String) :
    (map.toList.map Prod.fst).Nodup := by
  rw [Std.TreeMap.map_fst_toList_eq_keys]
  exact Std.TreeMap.nodup_keys

theorem valueOf_toList (map : Std.TreeMap String String) (name : String) :
    valueOf map.toList name = valueOf map name := by
  show valueOf map.toList name = map[name]?
  cases hmap : map[name]? with
  | some text =>
    exact valueOf_of_mem (nodup_names_toList map)
      (Std.TreeMap.mem_toList_iff_getElem?_eq_some.2 hmap)
  | none =>
    refine List.lookup_eq_none_iff.2 fun pair hpair => bne_iff_ne.2 fun heq => ?_
    have hbound : map[pair.1]? = some pair.2 :=
      Std.TreeMap.mem_toList_iff_getElem?_eq_some.1 hpair
    rw [← heq, hmap] at hbound
    cases hbound

/-- A map put together again from its own pairs answers as before: their names are distinct, so
their order does not matter. -/
theorem valueOf_ofPairs_toList (map : Std.TreeMap String String) (name : String) :
    valueOf (ofPairs (Std.TreeMap String String) map.toList) name = valueOf map name := by
  have hreordered : Reordered map.toList map.toList.reverse :=
    .of_perm (List.reverse_perm _).symm (nodup_names_toList map)
  calc valueOf (ofPairs (Std.TreeMap String String) map.toList) name
      = valueOf (ofPairs (Std.TreeMap String String) map.toList.reverse.reverse) name := by
        rw [List.reverse_reverse]
    _ = valueOf map.toList.reverse name := valueOf_ofPairs_reverse _ name
    _ = valueOf map.toList name := (hreordered.valueOf_eq name).symm
    _ = valueOf map name := valueOf_toList map name

/-! ## All sources -/

/-- Sources of bindings can stand for each other. Arrays answer as the list of their pairs, and so
does a map that is filled from the end of the list; a reference answers as what it refers to, and a
resolution as the map of its own pairs. A template asks for its names only and takes a name that is
bound to the empty text for a missing one. So pairs of distinct names can change places, pairs whose
names occurred before can follow, and names that the template does not use can come in anywhere. -/
theorem sources_interchangeable (t : Template) (pairs : List (String × String)) :
    (Interchangeable pairs pairs.toArray ∧ Interchangeable pairs pairs.toArray.toVector ∧
      Interchangeable pairs (ofPairs (Std.HashMap String String) pairs.reverse) ∧
      Interchangeable pairs (ofPairs (Std.TreeMap String String) pairs.reverse)) ∧
    (∀ (γ : Type) [Bindings γ] (bindings : γ), Interchangeable bindings (Ref.mk bindings)) ∧
    (∀ (γ δ : Type) [Bindings γ] [Bindings δ] (bindings : γ) (others : δ),
      (∀ name ∈ t.names, Agree bindings others name) → t.expand bindings = t.expand others) ∧
    (∀ others, Reordered pairs others → Interchangeable pairs others) ∧
    (∀ others, pairs.Perm others → (pairs.map Prod.fst).Nodup → Interchangeable pairs others) ∧
    (∀ more : List (String × String), (∀ pair ∈ more, pair.1 ∈ pairs.map Prod.fst) →
      Interchangeable pairs (pairs ++ more)) ∧
    (∀ others : List (String × String),
      pairs.filter (·.1 ∈ t.names) = others.filter (·.1 ∈ t.names) →
      t.expand pairs = t.expand others) ∧
    (∀ name text, name ∉ t.names →
      (∀ map : Std.HashMap String String, t.expand (map.insert name text) = t.expand map) ∧
      ∀ map : Std.TreeMap String String, t.expand (map.insert name text) = t.expand map) ∧
    ∀ r : Resolution, Interchangeable r (ofPairs (Std.TreeMap String String) r.toList) := by
  refine ⟨⟨?_, ?_, ?_, ?_⟩, ?_, ?_, ?_, ?_, ?_, ?_, ?_, ?_⟩
  · exact .of_valueOf fun _ => rfl
  · exact .of_valueOf fun _ => rfl
  · exact .of_valueOf fun name => (valueOf_ofPairs_reverse pairs name).symm
  · exact .of_valueOf fun name => (valueOf_ofPairs_reverse pairs name).symm
  · exact fun _ _ _ => .of_valueOf fun _ => rfl
  · exact fun _ _ _ _ _ _ h => expand_eq_of_agree h
  · exact fun _ h => .of_valueOf h.valueOf_eq
  · exact fun _ hperm hnames => .of_valueOf (Reordered.of_perm hperm hnames).valueOf_eq
  · exact fun _ hmore => .of_valueOf fun name => (valueOf_append hmore name).symm
  · intro others hfilter
    refine expand_eq_of_agree fun name hname => .inl ?_
    rw [← valueOf_filter hname pairs, hfilter, valueOf_filter hname]
  · exact fun name text hname => ⟨expand_insert (name, text) hname, expand_insert (name, text) hname⟩
  · exact fun r => .of_valueOf fun name => (valueOf_ofPairs_toList r.values name).symm

/-- An empty text for `title`, which hides the one after it. -/
def hidden : List (String × String) := [("title", ""), ("lang", "fr"), ("title", "a/b")]

theorem sources_interchangeable_hidden :
    Template.query.expand hidden = "?t=x&u=" ∧
    (∀ name ∈ Template.query.names, Agree hidden [("page", "1")] name) ∧
    Template.query.expand [("page", "1")] = "?t=x&u=" ∧
    Reordered hidden [("lang", "fr"), ("title", ""), ("title", "a/b")] ∧
    Interchangeable hidden [("lang", "fr"), ("title", ""), ("title", "a/b")] ∧
    [("title", "é"), ("lang", "fr")].Perm [("lang", "fr"), ("title", "é")] ∧
    ([("title", "é"), ("lang", "fr")].map Prod.fst).Nodup ∧
    Interchangeable [("title", "é"), ("lang", "fr")] [("lang", "fr"), ("title", "é")] ∧
    (∀ pair ∈ [("title", "c")], pair.1 ∈ hidden.map Prod.fst) ∧
    Interchangeable hidden (hidden ++ [("title", "c")]) ∧
    hidden.filter (·.1 ∈ Template.query.names) =
      [("title", ""), ("title", "a/b"), ("page", "1")].filter (·.1 ∈ Template.query.names) ∧
    Template.query.expand [("title", ""), ("title", "a/b"), ("page", "1")] = "?t=x&u=" ∧
    "lang" ∉ Template.query.names ∧
    Template.query.expand
      ((ofPairs (Std.HashMap String String) hidden.reverse).insert "lang" "de") = "?t=x&u=" := by
  have hexpand : Template.query.expand hidden = "?t=x&u=" := by decide +kernel
  have hagree : ∀ name ∈ Template.query.names, Agree hidden [("page", "1")] name := by decide
  have hreordered : Reordered hidden [("lang", "fr"), ("title", ""), ("title", "a/b")] :=
    .swap (by decide) _
  have hperm : [("title", "é"), ("lang", "fr")].Perm [("lang", "fr"), ("title", "é")] := .swap _ _ _
  have hnames : ([("title", "é"), ("lang", "fr")].map Prod.fst).Nodup := by decide
  have hmore : ∀ pair ∈ [("title", "c")], pair.1 ∈ hidden.map Prod.fst := by decide
  have hfilter : hidden.filter (·.1 ∈ Template.query.names) =
      [("title", ""), ("title", "a/b"), ("page", "1")].filter (·.1 ∈ Template.query.names) := by
    decide
  have hunused : "lang" ∉ Template.query.names := by decide
  obtain ⟨⟨-, -, hmap, -⟩, -, hagreeing, hmoved, -, happended, hfiltered, hinserted, -⟩ :=
    sources_interchangeable Template.query hidden
  obtain ⟨-, -, -, -, hpermuted, -⟩ :=
    sources_interchangeable Template.query [("title", "é"), ("lang", "fr")]
  have hinsert := (hinserted "lang" "de" hunused).1 (ofPairs _ hidden.reverse)
  exact ⟨hexpand, hagree, (hagreeing _ _ _ _ hagree).symm.trans hexpand, hreordered,
    hmoved _ hreordered, hperm, hnames, hpermuted _ hperm hnames, hmore, happended _ hmore, hfilter,
    (hfiltered _ hfilter).symm.trans hexpand, hunused,
    hinsert.trans ((hmap.expand_eq _).symm.trans hexpand)⟩

end Bindings

end UriTemplate
