import Mathlib.Data.List.Induction
import PrefixSearch.Proofs.BoundedSet
import PrefixSearch.Proofs.Trie.Grafting

/-!
# What a tree of texts holds

A place holds two ranked sets.  Adding a text puts the result into the completions of every place on
the way and, if asked for, into the exact results of the place at its end.  Splitting an edge does
not count as a change: a point inside an edge has had the completions of the edge's lower end all
along.  So what a place holds is determined by the texts that begin with its path, in the order in
which they were added, and which places are nodes is determined by the texts alone.
-/

namespace PrefixSearch

namespace Term

/-- The results of the exact texts that are the query. -/
def exactIds (terms : List Term) (query : List UInt8) : List Id :=
  (terms.filter fun term => term.exact && term.text == query).map Term.id

/-- The results of the texts that begin with the query. -/
def completionIds (terms : List Term) (query : List UInt8) : List Id :=
  (terms.filter fun term => query.isPrefixOf term.text).map Term.id

theorem mem_exactIds {terms : List Term} {query : List UInt8} {id : Id} :
    id ∈ exactIds terms query ↔
      ∃ term ∈ terms, term.exact = true ∧ term.text = query ∧ term.id = id := by
  simp [exactIds, and_assoc]

theorem mem_completionIds {terms : List Term} {query : List UInt8} {id : Id} :
    id ∈ completionIds terms query ↔ ∃ term ∈ terms, query <+: term.text ∧ term.id = id := by
  simp [completionIds, and_assoc]

@[simp] theorem exactIds_nil (query : List UInt8) : exactIds [] query = [] := rfl

@[simp] theorem completionIds_nil (query : List UInt8) : completionIds [] query = [] := rfl

theorem exactIds_append (left right : List Term) (query : List UInt8) :
    exactIds (left ++ right) query = exactIds left query ++ exactIds right query := by
  simp [exactIds]

theorem completionIds_append (left right : List Term) (query : List UInt8) :
    completionIds (left ++ right) query =
      completionIds left query ++ completionIds right query := by
  simp [completionIds]

theorem exactIds_cons (term : Term) (terms : List Term) (query : List UInt8) :
    exactIds (term :: terms) query =
      (if term.exact = true ∧ term.text = query then [term.id] else []) ++
        exactIds terms query := by
  by_cases hexact : term.exact = true ∧ term.text = query
  · simp [exactIds, hexact]
  · rw [if_neg hexact, List.nil_append, exactIds, List.filter_cons_of_neg (by simpa using hexact),
      exactIds]

theorem completionIds_cons (term : Term) (terms : List Term) (query : List UInt8) :
    completionIds (term :: terms) query =
      (if query <+: term.text then [term.id] else []) ++ completionIds terms query := by
  by_cases hbegins : query <+: term.text
  · simp [completionIds, hbegins]
  · rw [if_neg hbegins, List.nil_append, completionIds,
      List.filter_cons_of_neg (by simpa using hbegins), completionIds]

/-- The IDs of the texts that begin with the query are IDs of texts. -/
theorem mem_ids_of_mem_completionIds {terms : List Term} {query : List UInt8} {id : Id}
    (hid : id ∈ completionIds terms query) : id ∈ terms.map Term.id := by
  obtain ⟨term, hterm, -, rfl⟩ := mem_completionIds.mp hid
  exact List.mem_map_of_mem hterm

end Term

/-! ## Adding one text -/

namespace Hits

variable [Search] (table : ResultTable) (bound : Nat) (id : Id)

@[simp] theorem finish_completions (exact : Bool) (hits : Hits) :
    (hits.finish table bound id exact).completions =
      Ranked.insert table (some bound) id hits.completions := by
  unfold finish
  split <;> rfl

end Hits

namespace Trie

theorem place_empty {bound : Nat} (byte : UInt8) (rest : List UInt8) :
    ({ bound } : Trie).place (byte :: rest) = Place.nowhere :=
  Place.descend_nowhere rest

theorem hits_place_empty {bound : Nat} (query : List UInt8) :
    (({ bound } : Trie).place query).hits = {} := by
  cases query with
  | nil => rfl
  | cons byte rest => rw [place_empty]; rfl

variable [Search] {t : Trie} (table : ResultTable)

/-- What an addition of a text does to the node at its end. -/
def finishTerm (bound : Nat) (term : Term) (hits : Hits) (below : Forest) : Hits × Forest :=
  (hits.finish table bound term.id term.exact, below)

theorem offers_term (bound : Nat) (term : Term) :
    Offers (Ranked.insert table (some bound) term.id) (Hits.complete table bound term.id)
      (finishTerm table bound term) where
  through_eq _ := rfl
  finish_completions hits _ := Hits.finish_completions table bound term.id term.exact hits

@[simp] theorem bound_insert (term : Term) : (t.insert table term).bound = t.bound := by
  unfold insert
  dsimp only
  split <;> rfl

theorem root_insert (term : Term) :
    (t.insert table term).root =
      t.root.graft (Hits.complete table t.bound term.id) (finishTerm table t.bound term)
        term.text := by
  unfold insert
  dsimp only
  split
  · next htext =>
    rw [htext, Place.graft_nil]
    rfl
  · next htext =>
    rw [Place.graft_of_ne _ _ htext]
    simp only [root, true_or]
    rfl

theorem wellFormed_insert (ht : t.forest.WellFormed) (term : Term) :
    (t.insert table term).forest.WellFormed := by
  unfold insert
  dsimp only
  split
  · exact ht
  · next htext => exact Forest.wellFormed_graft (fun _ _ hbelow => hbelow) ht htext

/-- On the way to a text, the rest of it is added below. -/
theorem place_insert_of_append (ht : t.forest.WellFormed) {term : Term} {query rest : List UInt8}
    (htext : query ++ rest = term.text) :
    (t.insert table term).place query =
      (t.place query).graft (Hits.complete table t.bound term.id)
        (finishTerm table t.bound term) rest := by
  rw [place, root_insert, ← htext, Place.descend_graft_append (offers_term table t.bound term) ht]
  rfl

theorem place_insert_off_way (ht : t.forest.WellFormed) {term : Term} {query : List UInt8}
    (hquery : ¬ query <+: term.text) : (t.insert table term).place query = t.place query := by
  rw [place, root_insert, Place.descend_graft_off_way (offers_term table t.bound term)
    (fun _ _ => rfl) ht hquery]
  rfl

/-- What an addition changes in the sets of a place. -/
theorem hits_place_insert (ht : t.forest.WellFormed) (term : Term) (query : List UInt8) :
    ((t.insert table term).place query).hits =
      { exact := Ranked.insertAll table none (Term.exactIds [term] query)
          (t.place query).hits.exact
        completions := Ranked.insertAll table (some t.bound) (Term.completionIds [term] query)
          (t.place query).hits.completions } := by
  by_cases hbegins : query <+: term.text
  · obtain ⟨rest, htext⟩ := hbegins
    have hcompletes : query <+: term.text := ⟨rest, htext⟩
    rw [place_insert_of_append table ht htext, Term.exactIds_cons, Term.completionIds_cons,
      if_pos hcompletes]
    by_cases hrest : rest = []
    · have hquery : term.text = query := by rw [← htext, hrest, List.append_nil]
      rw [hrest, Place.graft_nil]
      by_cases hexact : term.exact = true
      · simp [finishTerm, Hits.finish, Hits.complete, hexact, hquery]
      · simp [finishTerm, Hits.finish, Hits.complete, hexact]
    · have hquery : term.text ≠ query := by
        intro heq
        rw [← heq] at htext
        exact hrest (List.append_right_eq_self.mp htext)
      rw [Place.graft_of_ne _ _ hrest]
      simp [Hits.complete, hquery]
  · have hquery : term.text ≠ query := by
      rintro rfl
      exact hbegins (List.prefix_refl _)
    rw [place_insert_off_way table ht hbegins, Term.exactIds_cons, Term.completionIds_cons,
      if_neg hbegins, if_neg (fun h => hquery h.2)]
    simp

theorem inside_place_insert (ht : t.forest.WellFormed) (term : Term) (query : List UInt8) :
    ((t.insert table term).place query).Inside ↔
      (t.place query).Inside ∨ query <+: term.text := by
  by_cases hbegins : query <+: term.text
  · obtain ⟨rest, htext⟩ := hbegins
    have hbegins : query <+: term.text := ⟨rest, htext⟩
    rw [place_insert_of_append table ht htext]
    simp only [Place.inside_graft, hbegins, or_true]
  · rw [place_insert_off_way table ht hbegins]
    simp only [hbegins, or_false]

/-- A place becomes a node at the end of the text, and where the text leaves an edge. -/
theorem isNode_place_insert (ht : t.forest.WellFormed) (term : Term) (query : List UInt8) :
    ((t.insert table term).place query).isNode ↔
      (t.place query).isNode ∨ term.text = query ∨
        ∃ a b, a ≠ b ∧ query ++ [a] <+: term.text ∧ (t.place (query ++ [b])).Inside := by
  by_cases hbegins : query <+: term.text
  · obtain ⟨rest, htext⟩ := hbegins
    rw [place_insert_of_append table ht htext, ← htext]
    cases rest with
    | nil =>
        rw [Place.graft_nil]
        simp
    | cons byte rest =>
        -- the text goes on, so this becomes a node only if another text goes on differently
        have hne : query ++ byte :: rest ≠ query := by simp
        have hbyte : ∀ a, query ++ [a] <+: query ++ byte :: rest ↔ a = byte := by
          intro a
          rw [List.prefix_append_right_inj, List.cons_prefix_cons]
          simp
        have hstep : ∀ b, t.place (query ++ [b]) = (t.place query).below.step b := by
          intro b
          rw [place, Place.descend_append]
          rfl
        rw [Place.graft_of_ne _ _ (List.cons_ne_nil byte rest)]
        simp only [hne, false_or, hbyte, hstep, Forest.ForksFrom, List.head?_cons,
          Option.some.injEq]
        refine or_congr_right ⟨?_, ?_⟩
        · rintro ⟨a, b, hfirst, hab, hinside⟩
          exact ⟨a, b, hab, hfirst.symm, hinside⟩
        · rintro ⟨a, b, hab, hfirst, hinside⟩
          exact ⟨a, b, hfirst.symm, hab, hinside⟩
  · rw [place_insert_off_way table ht hbegins]
    have hquery : term.text ≠ query := by
      rintro rfl
      exact hbegins (List.prefix_refl _)
    simp only [hquery, false_or]
    refine ⟨Or.inl, ?_⟩
    rintro (hnode | ⟨a, b, -, hlonger, -⟩)
    · exact hnode
    · exact absurd ((List.prefix_append query [a]).trans hlonger) hbegins

/-! ## Adding texts, one after the other -/

@[simp] theorem insertAll_nil (t : Trie) : t.insertAll table [] = t := rfl

@[simp] theorem insertAll_cons (t : Trie) (term : Term) (terms : List Term) :
    t.insertAll table (term :: terms) = (t.insert table term).insertAll table terms := rfl

theorem insertAll_append (t : Trie) (left right : List Term) :
    t.insertAll table (left ++ right) = (t.insertAll table left).insertAll table right := by
  simp [insertAll]

@[simp] theorem bound_insertAll (terms : List Term) :
    (t.insertAll table terms).bound = t.bound := by
  induction terms generalizing t with
  | nil => rfl
  | cons term terms ih => rw [insertAll_cons, ih, bound_insert]

theorem wellFormed_insertAll (ht : t.forest.WellFormed) (terms : List Term) :
    (t.insertAll table terms).forest.WellFormed := by
  induction terms generalizing t with
  | nil => exact ht
  | cons term terms ih => exact ih (wellFormed_insert table ht term)

/-- What a place holds: what it held, and the results of the texts that concern it. -/
theorem hits_place_insertAll (ht : t.forest.WellFormed) (terms : List Term)
    (query : List UInt8) :
    ((t.insertAll table terms).place query).hits =
      { exact := Ranked.insertAll table none (Term.exactIds terms query)
          (t.place query).hits.exact
        completions := Ranked.insertAll table (some t.bound) (Term.completionIds terms query)
          (t.place query).hits.completions } := by
  induction terms generalizing t with
  | nil => rfl
  | cons term terms ih =>
      rw [insertAll_cons, ih (wellFormed_insert table ht term), hits_place_insert table ht,
        bound_insert]
      simp only [← Ranked.insertAll_append, ← Term.exactIds_append, ← Term.completionIds_append,
        List.singleton_append]

theorem inside_place_insertAll (ht : t.forest.WellFormed) (terms : List Term)
    (query : List UInt8) :
    ((t.insertAll table terms).place query).Inside ↔
      (t.place query).Inside ∨ ∃ term ∈ terms, query <+: term.text := by
  induction terms generalizing t with
  | nil => simp
  | cons term terms ih =>
      rw [insertAll_cons, ih (wellFormed_insert table ht term), inside_place_insert table ht]
      simp only [List.mem_cons, exists_eq_or_imp, or_assoc]

/-- The tree of some texts. -/
def ofTerms (bound : Nat) (terms : List Term) : Trie :=
  ({ bound } : Trie).insertAll table terms

@[simp] theorem bound_ofTerms (bound : Nat) (terms : List Term) :
    (ofTerms table bound terms).bound = bound :=
  bound_insertAll table terms

theorem wellFormed_ofTerms (bound : Nat) (terms : List Term) :
    (ofTerms table bound terms).forest.WellFormed :=
  wellFormed_insertAll table Forest.wellFormed_nil terms

theorem ofTerms_append (bound : Nat) (left right : List Term) :
    ofTerms table bound (left ++ right) = (ofTerms table bound left).insertAll table right :=
  insertAll_append table { bound } left right

theorem hits_place_ofTerms (bound : Nat) (terms : List Term) (query : List UInt8) :
    ((ofTerms table bound terms).place query).hits =
      { exact := Ranked.insertAll table none (Term.exactIds terms query) []
        completions :=
          Ranked.insertAll table (some bound) (Term.completionIds terms query) [] } := by
  rw [ofTerms, hits_place_insertAll table Forest.wellFormed_nil, hits_place_empty]

theorem inside_place_ofTerms (bound : Nat) (terms : List Term) (query : List UInt8) :
    ((ofTerms table bound terms).place query).Inside ↔
      query = [] ∨ ∃ term ∈ terms, query <+: term.text := by
  rw [ofTerms, inside_place_insertAll table Forest.wellFormed_nil]
  refine or_congr_left ?_
  cases query with
  | nil => simp [root, Place.Inside]
  | cons byte rest => simp [place_empty]

end Trie

/-! ## Which places are nodes -/

namespace Term

/-- Some text goes on from the query with the byte. -/
def GoesOn (terms : List Term) (query : List UInt8) (byte : UInt8) : Prop :=
  ∃ term ∈ terms, query ++ [byte] <+: term.text

/-- The texts go on from the query with at least two different bytes. -/
def Branch (terms : List Term) (query : List UInt8) : Prop :=
  ∃ a b, a ≠ b ∧ GoesOn terms query a ∧ GoesOn terms query b

/-- The query is empty, or a text ends there, or texts part there. -/
def Parts (terms : List Term) (query : List UInt8) : Prop :=
  query = [] ∨ (∃ term ∈ terms, term.text = query) ∨ Branch terms query

theorem goesOn_append {left right : List Term} {query : List UInt8} {byte : UInt8} :
    GoesOn (left ++ right) query byte ↔ GoesOn left query byte ∨ GoesOn right query byte := by
  simp [GoesOn, or_and_right, exists_or]

theorem branch_append {left right : List Term} {query : List UInt8} :
    Branch (left ++ right) query ↔ Branch left query ∨ Branch right query ∨
      ∃ a b, a ≠ b ∧ GoesOn left query a ∧ GoesOn right query b := by
  simp only [Branch, goesOn_append]
  constructor
  · rintro ⟨a, b, hne, hleft | hright, hleft' | hright'⟩
    · exact Or.inl ⟨a, b, hne, hleft, hleft'⟩
    · exact Or.inr (Or.inr ⟨a, b, hne, hleft, hright'⟩)
    · exact Or.inr (Or.inr ⟨b, a, hne.symm, hleft', hright⟩)
    · exact Or.inr (Or.inl ⟨a, b, hne, hright, hright'⟩)
  · rintro (⟨a, b, hne, ha, hb⟩ | ⟨a, b, hne, ha, hb⟩ | ⟨a, b, hne, ha, hb⟩)
    · exact ⟨a, b, hne, Or.inl ha, Or.inl hb⟩
    · exact ⟨a, b, hne, Or.inr ha, Or.inr hb⟩
    · exact ⟨a, b, hne, Or.inl ha, Or.inr hb⟩

theorem parts_append {left right : List Term} {query : List UInt8} :
    Parts (left ++ right) query ↔ Parts left query ∨ Parts right query ∨
      ∃ a b, a ≠ b ∧ GoesOn left query a ∧ GoesOn right query b := by
  simp only [Parts, branch_append, List.mem_append, or_and_right, exists_or]
  constructor
  · rintro (hnil | (hleft | hright) | hleft | hright | hacross)
    · exact Or.inl (Or.inl hnil)
    · exact Or.inl (Or.inr (Or.inl hleft))
    · exact Or.inr (Or.inl (Or.inr (Or.inl hright)))
    · exact Or.inl (Or.inr (Or.inr hleft))
    · exact Or.inr (Or.inl (Or.inr (Or.inr hright)))
    · exact Or.inr (Or.inr hacross)
  · rintro ((hnil | hleft | hleft) | (hnil | hright | hright) | hacross)
    · exact Or.inl hnil
    · exact Or.inr (Or.inl (Or.inl hleft))
    · exact Or.inr (Or.inr (Or.inl hleft))
    · exact Or.inl hnil
    · exact Or.inr (Or.inl (Or.inr hright))
    · exact Or.inr (Or.inr (Or.inr (Or.inl hright)))
    · exact Or.inr (Or.inr (Or.inr (Or.inr hacross)))

/-- Texts of two lists part at a query, whichever list is called the first. -/
theorem across_comm {left right : List Term} {query : List UInt8} :
    (∃ a b, a ≠ b ∧ GoesOn left query a ∧ GoesOn right query b) ↔
      ∃ a b, a ≠ b ∧ GoesOn right query a ∧ GoesOn left query b := by
  constructor
  · rintro ⟨a, b, hne, ha, hb⟩
    exact ⟨b, a, hne.symm, hb, ha⟩
  · rintro ⟨a, b, hne, ha, hb⟩
    exact ⟨b, a, hne.symm, hb, ha⟩

theorem not_branch_singleton (term : Term) (query : List UInt8) : ¬ Branch [term] query := by
  rintro ⟨a, b, hne, ⟨first, hfirst, ha⟩, ⟨second, hsecond, hb⟩⟩
  obtain rfl := List.mem_singleton.mp hfirst
  obtain rfl := List.mem_singleton.mp hsecond
  have heq : query ++ [a] = query ++ [b] :=
    (List.prefix_of_prefix_length_le ha hb (by simp)).eq_of_length (by simp)
  exact hne (by simpa using heq)

end Term

namespace Trie

variable [Search]

theorem inside_step_ofTerms (table : ResultTable) (bound : Nat) (terms : List Term)
    (query : List UInt8) (byte : UInt8) :
    ((ofTerms table bound terms).place (query ++ [byte])).Inside ↔
      Term.GoesOn terms query byte := by
  rw [inside_place_ofTerms]
  simp [Term.GoesOn]

/-- The nodes of a tree of texts depend neither on the results nor on the order of the texts. -/
theorem isNode_place_ofTerms (table : ResultTable) (bound : Nat) (terms : List Term)
    (query : List UInt8) :
    ((ofTerms table bound terms).place query).isNode ↔ Term.Parts terms query := by
  induction terms using List.reverseRecOn with
  | nil =>
      cases query with
      | nil => simp [Term.Parts, ofTerms, root]
      | cons byte rest =>
          simp [Term.Parts, Term.Branch, Term.GoesOn, ofTerms, place_empty, Place.nowhere]
  | append_singleton terms term ih =>
      have hstep := isNode_place_insert table (wellFormed_ofTerms table bound terms) term query
      rw [ofTerms_append, insertAll_cons, insertAll_nil, hstep, ih, Term.parts_append]
      simp only [inside_step_ofTerms]
      have hbranch := Term.not_branch_singleton term query
      constructor
      · rintro (hparts | htext | ⟨a, b, hne, hterm, hgoesOn⟩)
        · exact Or.inl hparts
        · exact Or.inr (Or.inl (Or.inr (Or.inl ⟨term, by simp, htext⟩)))
        · exact Or.inr (Or.inr ⟨b, a, hne.symm, hgoesOn, term, by simp, hterm⟩)
      · rintro (hparts | (hnil | ⟨other, hother, htext⟩ | hparts) | ⟨a, b, hne, hgoesOn, hterm⟩)
        · exact Or.inl hparts
        · exact Or.inl (Or.inl hnil)
        · obtain rfl := List.mem_singleton.mp hother
          exact Or.inr (Or.inl htext)
        · exact absurd hparts hbranch
        · obtain ⟨other, hother, hbegins⟩ := hterm
          obtain rfl := List.mem_singleton.mp hother
          exact Or.inr (Or.inr ⟨b, a, hne.symm, hbegins, hgoesOn⟩)

end Trie

end PrefixSearch
