import PrefixSearch.Proofs.AddingEntries

/-!
# The completions of a tree are the best ones

A bounded set forgets results, splitting an edge copies a set that has already forgotten some, and a
result that comes later may take the place of one that looks the same.  As long as ranks follow IDs
none of this shows: every node has the best of all results whose texts begin with its path, one for
each look, in whatever order the texts came.
-/

namespace PrefixSearch

namespace ResultTable

/-- The list has the best results with the property, the lowest ID of each look, in rank order. -/
def ListsBest (t : ResultTable) (count : Nat) (P : Id → Prop) (set : List Id) : Prop :=
  ∃ all, t.Lists (t.Lowest P) all ∧ set = all.take count

end ResultTable

namespace Term

/-- A text of the list leads to the result and begins with the path. -/
def Completes (terms : List Term) (path : List UInt8) (id : Id) : Prop :=
  ∃ term ∈ terms, path <+: term.text ∧ term.id = id

/-- An exact text of the list leads to the result and is the path. -/
def EndsAt (terms : List Term) (path : List UInt8) (id : Id) : Prop :=
  ∃ term ∈ terms, term.exact = true ∧ term.text = path ∧ term.id = id

end Term

namespace Trie

variable {table : ResultTable} {bound : Nat} {terms : List Term}

/-- Results of entries that are no aliases look different, so their ranks follow their IDs. -/
theorem ranksFollowIds_of_collected {index : Index} (hterms : index.Collected terms) :
    index.table.RanksFollowIds fun id =>
      id ∈ terms.map Term.id ∧ (index.table.get id).kind ≠ .redirect := by
  rintro a b ⟨ha, haKind⟩ ⟨hb, hbKind⟩ hsame hlt
  have heq : a = b :=
    hterms.grown.eq_of_sameTarget (hterms.isKept ha).1 (hterms.isKept hb).1 haKind hbKind hsame
  exact absurd heq (Nat.ne_of_lt hlt)

section

variable [Search]

/-- Exact sets have no bound, so nothing needs to be supposed for them. -/
theorem lists_exact (table : ResultTable) (bound : Nat) (terms : List Term)
    (path : List UInt8) :
    table.Lists (table.Lowest (Term.EndsAt terms path))
      ((ofTerms table bound terms).place path).hits.exact := by
  rw [hits_place_ofTerms]
  exact (Ranked.lists_lowest_insertAll table (Term.exactIds terms path)).congr
    (ResultTable.lowest_congr fun _ => Term.mem_exactIds)

theorem listsBest_completions (hranks : table.RanksFollowIds (· ∈ terms.map Term.id))
    (path : List UInt8) :
    table.ListsBest bound (Term.Completes terms path)
      ((ofTerms table bound terms).place path).hits.completions := by
  have hhere : table.RanksFollowIds (· ∈ Term.completionIds terms path) :=
    hranks.mono fun _ hid => Term.mem_ids_of_mem_completionIds hid
  rw [hits_place_ofTerms]
  refine ⟨Ranked.insertAll table none (Term.completionIds terms path) [], ?_, ?_⟩
  · exact (Ranked.lists_lowest_insertAll table _).congr
      (ResultTable.lowest_congr fun _ => Term.mem_completionIds)
  · exact Ranked.insertAll_some_eq_take (Ranked.settled_of_ranksFollowIds bound hhere)

/-- Neither the order nor the repetitions of the texts count. -/
theorem ofTerms_eq_of_mem_iff {other : List Term}
    (hranks : table.RanksFollowIds (· ∈ terms.map Term.id))
    (hmem : ∀ term, term ∈ terms ↔ term ∈ other) :
    ofTerms table bound other = ofTerms table bound terms := by
  refine eq_of_places (wellFormed_ofTerms table bound other) (wellFormed_ofTerms table bound terms)
    ?_ ?_ ?_
  · rw [bound_ofTerms, bound_ofTerms]
  · intro text
    rw [isNode_place_ofTerms, isNode_place_ofTerms]
    simp only [Term.Parts, Term.Branch, Term.GoesOn, hmem]
  · intro text
    have hexact : Ranked.insertAll table none (Term.exactIds other text) [] =
        Ranked.insertAll table none (Term.exactIds terms text) [] := by
      refine Ranked.orderIrrelevant_none table _ _ _ (fun _ hid => hid) fun id => ?_
      simp only [Term.mem_exactIds, hmem]
    have hcompletions : Ranked.insertAll table (some bound) (Term.completionIds other text) [] =
        Ranked.insertAll table (some bound) (Term.completionIds terms text) [] := by
      have hhere : table.RanksFollowIds (· ∈ Term.completionIds terms text) :=
        hranks.mono fun _ hid => Term.mem_ids_of_mem_completionIds hid
      have horder := Ranked.orderIrrelevant_some (Ranked.settled_of_ranksFollowIds bound hhere)
      refine (horder _ _ (fun _ hid => hid) fun id => ?_).symm
      simp only [Term.mem_completionIds, hmem]
    rw [hits_place_ofTerms, hits_place_ofTerms, hexact, hcompletions]

/-- Let the ranks of results that look the same follow their IDs.  Then every node of a tree of
texts has as completions the best results of the texts that begin with its path, and as exact
results those of the exact texts that are its path, each time the lowest ID of every look; and the
order of the texts does not count.  Results registered from entries that are no aliases satisfy
the assumption. -/
theorem insertAll_best (table : ResultTable) (bound : Nat) (terms : List Term)
    (hranks : table.RanksFollowIds (· ∈ terms.map Term.id)) :
    (∀ path hits, (path, hits) ∈ (({ bound } : Trie).insertAll table terms).nodes →
      table.ListsBest bound (Term.Completes terms path) hits.completions ∧
        table.Lists (table.Lowest (Term.EndsAt terms path)) hits.exact) ∧
    (∀ other, terms.Perm other →
      ({ bound } : Trie).insertAll table other = ({ bound } : Trie).insertAll table terms) ∧
    ∀ config entries registered index,
      (Index.empty config).registerAll entries = .ok (registered, index) →
        index.table.RanksFollowIds fun id =>
          id ∈ registered.map Term.id ∧ (index.table.get id).kind ≠ .redirect := by
  refine ⟨?_, ?_, ?_⟩
  · intro path hits hnode
    obtain ⟨-, hhits⟩ := place_of_mem_nodes (wellFormed_ofTerms table bound terms) hnode
    rw [← hhits]
    exact ⟨listsBest_completions hranks path, lists_exact table bound terms path⟩
  · intro other hperm
    exact ofTerms_eq_of_mem_iff hranks fun term => hperm.mem_iff
  · intro config entries registered index hregister
    obtain ⟨hterms, -, -⟩ := Index.registerAll_eq_ok hregister
    exact ranksFollowIds_of_collected hterms

end

/-- A page and two aliases of it with one name. -/
def aliasTable : ResultTable where
  rows := #[
    { entry := { name := "min", url := "min.html", kind := .page } },
    { entry := .aliasTo "minimum" 0 },
    { entry := .aliasTo "minimum" 0 }]

theorem insertAll_best_aliasTable :
    let terms : List Term := [
      { text := Text.utf8 "minimum", id := 2, exact := true },
      { text := Text.utf8 "min", id := 0, exact := true },
      { text := Text.utf8 "minimum", id := 1, exact := true }]
    let trie := ({ bound := 1 } : Trie).insertAll aliasTable terms
    trie.lookup (Text.utf8 "mini") = { completions := [1] } ∧
      aliasTable.RanksFollowIds (· ∈ terms.map Term.id) ∧
        ∀ path hits, (path, hits) ∈ trie.nodes →
          aliasTable.ListsBest 1 (Term.Completes terms path) hits.completions := by
  intro terms trie
  have hranks : aliasTable.RanksFollowIds (· ∈ terms.map Term.id) := by decide
  refine ⟨by decide, hranks, fun path hits hnode => ?_⟩
  exact ((insertAll_best aliasTable 1 terms hranks).1 path hits hnode).1

end Trie

end PrefixSearch
