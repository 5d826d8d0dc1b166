import PrefixSearch.Proofs.AddingEntries

/-!
# What a built index finds

The texts that lead to a result can be read off the final table: the name of a kept entry with its
scope suffixes, its keywords, and the keywords of the duplicates that were merged into it.  A query
finds exactly the results that own it, the lowest ID of each look, and as completions as many of the
results that own a longer text as fit, each look once, best ranked first.
-/

namespace PrefixSearch

namespace Index

/-- The ID owns a text that begins with the query. -/
def OwnsFrom (index : Index) (query : List UInt8) (id : Id) : Prop :=
  ∃ text, index.Owns id text ∧ query <+: text

theorem lookup_withTree [Search] (index : Index) (terms : List Term) (query : String) :
    (index.withTree terms).lookup query =
      { exact := Ranked.insertAll index.table none
          (Term.exactIds terms (Text.utf8 (index.normalize query))) []
        completions := Ranked.insertAll index.table (some index.config.maxCompletions)
          (Term.completionIds terms (Text.utf8 (index.normalize query))) [] } := by
  show (Trie.ofTerms index.table index.config.maxCompletions terms).lookup
    (Text.utf8 (index.normalize query)) = _
  rw [Trie.lookup_eq_place (Trie.wellFormed_ofTerms _ _ _), Trie.hits_place_ofTerms]

theorem Collected.mem_exactIds {index : Index} {terms : List Term}
    (hterms : index.Collected terms) (query : List UInt8) (id : Id) :
    id ∈ Term.exactIds terms query ↔ index.OwnsExactly id query := by
  rw [Term.mem_exactIds, ← hterms.exact_iff]
  constructor
  · rintro ⟨⟨text, id, exact⟩, hterm, rfl, rfl, rfl⟩
    exact hterm
  · intro hterm
    exact ⟨_, hterm, rfl, rfl, rfl⟩

theorem Collected.mem_completionIds {index : Index} {terms : List Term}
    (hterms : index.Collected terms) (query : List UInt8) (id : Id) :
    id ∈ Term.completionIds terms query ↔ index.OwnsFrom query id := by
  simp only [Term.mem_completionIds, OwnsFrom, ← hterms.mem_iff]
  constructor
  · rintro ⟨term, hterm, hbegins, hid⟩
    exact ⟨term.text, ⟨term, hterm, rfl, hid⟩, hbegins⟩
  · rintro ⟨text, ⟨term, hterm, rfl, hid⟩, hbegins⟩
    exact ⟨term, hterm, hbegins, hid⟩

/-- What every query finds in an index to which entries were added: exactly, the lowest ID of each
look among the results that own the query; as completions, as many results that own a text
beginning with it as fit, no two of which look the same, in rank order. -/
theorem lookup_addAll [Search] {config : Config} {entries : List Entry} {index : Index}
    (hadd : (empty config).addAll entries = .ok index) (query : String) :
    let text := Text.utf8 (Text.normalize config.caseInsensitive query)
    let hits := index.lookup query
    index.config = config ∧
      index.table.Lists (index.table.Lowest (index.OwnsExactly · text)) hits.exact ∧
      (∀ id ∈ hits.completions, index.OwnsFrom text id) ∧
      hits.completions.Pairwise index.table.RanksBefore ∧
      hits.completions.Pairwise (fun a b => index.table.sameTarget a b = false) ∧
      ∃ classes, index.table.Lists (index.table.Lowest (index.OwnsFrom text)) classes ∧
        hits.completions.length = min config.maxCompletions classes.length := by
  obtain ⟨terms, last, -, hterms, rfl, rfl⟩ := addAll_eq_ok hadd
  intro text hits
  have hhits : hits = _ := lookup_withTree last terms query
  have hexactIds : ∀ id, id ∈ Term.exactIds terms text ↔ last.OwnsExactly id text :=
    hterms.mem_exactIds text
  have hcompletionIds : ∀ id, id ∈ Term.completionIds terms text ↔ last.OwnsFrom text id :=
    hterms.mem_completionIds text
  have hclasses := Ranked.lists_lowest_insertAll last.table (Term.completionIds terms text)
  obtain ⟨hranked, hapart⟩ := Ranked.ranked_apart_insertAll last.table
    (some last.config.maxCompletions) (Term.completionIds terms text)
  rw [hhits]
  refine ⟨rfl, ?_, ?_, hranked, ?_, Ranked.insertAll last.table none
    (Term.completionIds terms text) [], ?_, ?_⟩
  · exact (Ranked.lists_lowest_insertAll last.table (Term.exactIds terms text)).congr
      (ResultTable.lowest_congr hexactIds)
  · intro id hid
    have hmem := (Ranked.mem_of_mem_insertAll hid).resolve_right List.not_mem_nil
    exact (hcompletionIds id).mp hmem
  · refine (List.pairwise_map.mp hapart).imp ?_
    intro a b hne
    rw [← Bool.not_eq_true, ResultTable.sameTarget_iff]
    exact hne
  · exact hclasses.congr (ResultTable.lowest_congr hcompletionIds)
  · rw [Ranked.length_of_lists_lowest hclasses]
    exact Ranked.length_insertAll last.table _ _

/-- A function, a duplicate of it with another keyword, and an alias. -/
def minimumEntries : List Entry := [
  { name := "b::min", url := "m.html", kind := .function, keywords := ["least"] },
  { name := "B::Min", url := "m.html", kind := .function, keywords := ["Low"] },
  .aliasTo "Minimum" 0]

theorem lookup_addAll_minimumEntries :
    ∃ index, (empty {}).addAll minimumEntries = .ok index ∧
      index.lookup "LO" = { completions := [0] } ∧
      index.table.Lists
        (index.table.Lowest (index.OwnsExactly · (Text.utf8 (Text.normalize true "min"))))
        (index.lookup "min").exact := by
  have hrun : ((empty {}).addAll minimumEntries).toOption.map (·.lookup "LO") =
      some { completions := [0] } := by decide +kernel
  cases hadd : (empty {}).addAll minimumEntries with
  | error fault =>
      rw [hadd] at hrun
      cases hrun
  | ok index =>
      rw [hadd] at hrun
      exact ⟨index, rfl, Option.some.inj hrun, (lookup_addAll hadd "min").2.1⟩

end Index

end PrefixSearch
