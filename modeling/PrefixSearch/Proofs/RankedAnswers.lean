import PrefixSearch.Proofs.Coverage
import PrefixSearch.Proofs.DecodedResults
import PrefixSearch.Proofs.Searches

/-!
# Answers in rank order

A merge may change the kind that an alias resolves to, and with it the rank of the alias in every set
that has it.  From then on these sets are not in rank order, and the search for the spot of a result
that is added to one of them may end anywhere.  What does not depend on the spot holds all the same: a
set has each result once, and no more completions than the bound.  Freezing puts every set into the
order of the final table and changes nothing else about it.
-/

namespace PrefixSearch

namespace Hits

/-- The sets hold the same results as before, each once, in rank order, and no more completions than
the bound. -/
structure RankedFrom (table : ResultTable) (bound : Nat) (before after : Hits) : Prop where
  exact_perm : after.exact.Perm before.exact
  completions_perm : after.completions.Perm before.completions
  exact_nodup : after.exact.Nodup
  completions_nodup : after.completions.Nodup
  exact_ranked : after.exact.Pairwise table.RanksBefore
  completions_ranked : after.completions.Pairwise table.RanksBefore
  length_le : after.completions.length ≤ bound

theorem rankedFrom_sort {table : ResultTable} {bound size : Nat} {hits : Hits}
    (hwithin : hits.Within size) (hbounded : hits.Bounded bound) :
    RankedFrom table bound hits (hits.sort table) := by
  have hexact : (Ranked.sort table hits.exact).Perm hits.exact := Ranked.sort_perm _ _
  have hcompletions : (Ranked.sort table hits.completions).Perm hits.completions :=
    Ranked.sort_perm _ _
  exact
    { exact_perm := hexact
      completions_perm := hcompletions
      exact_nodup := hexact.nodup_iff.mpr hwithin.1.1
      completions_nodup := hcompletions.nodup_iff.mpr hwithin.2.1
      exact_ranked := Ranked.ranked_sort hwithin.1.1
      completions_ranked := Ranked.ranked_sort hwithin.2.1
      length_le := hcompletions.length_eq.trans_le hbounded }

/-- The list of a query begins with the exact results and goes on with the other completions, both in
the order of their sets. -/
theorem ordered_of_ranked {table : ResultTable} {hits : Hits}
    (hcompletions : hits.completions.Pairwise table.RanksBefore) :
    ∃ rest, hits.ordered = hits.exact ++ rest ∧ rest.Pairwise table.RanksBefore ∧
      ∀ id, id ∈ rest ↔ id ∈ hits.completions ∧ id ∉ hits.exact := by
  refine ⟨_, ordered_eq (ResultTable.nodup_of_ranked hcompletions), hcompletions.filter _, ?_⟩
  intro id
  rw [List.mem_filter, decide_eq_true_eq]

end Hits

namespace Index

variable {config : Config} {index : Index} {frozen : Frozen}

/-- What a text finds after freezing, the sets of what it found before put in order. -/
theorem Bounded.lookup_rankedFrom (hindex : index.Bounded) (query : String) :
    (index.lookup query).RankedFrom index.table index.trie.bound (index.sorted.lookup query) := by
  rw [lookup_sorted]
  refine Hits.rankedFrom_sort (hindex.sound.lookup query) ?_
  exact hindex.nodes.lookup (Nat.zero_le _) (fun _ hhits => hhits) _

/-- The nodes of the frozen tree, the nodes of the tree with their sets put in order. -/
theorem Bounded.nodes_rankedFrom (hindex : index.Bounded) :
    List.Forall₂ (fun before after => after.1 = before.1 ∧
        before.2.RankedFrom index.table index.trie.bound after.2)
      index.trie.nodes index.sorted.trie.nodes := by
  have hnodes : index.sorted.trie.nodes =
      index.trie.nodes.map fun node => (node.1, node.2.sort index.table) :=
    Trie.nodes_mapHits _ index.trie
  rw [hnodes, List.forall₂_map_right_iff, List.forall₂_same]
  intro node hnode
  exact ⟨rfl, Hits.rankedFrom_sort (hindex.sound.trie.all.of_mem_nodes hnode)
    (hindex.nodes.of_mem_nodes hnode)⟩

/-- Whatever was done to an index, and wherever the searches in its sets ended, freezing it leaves the
table and puts the sets of every node into the rank order of the table.  So a query of the file lists
the exact results in rank order and then the other completions in rank order. -/
theorem Reachable.answers_ranked [Search] (hreach : Reachable config index)
    (hfinal : index.finalize = .ok frozen) :
    frozen.table = index.table ∧
      List.Forall₂ (fun before after => after.1 = before.1 ∧
          before.2.RankedFrom index.table config.maxCompletions after.2)
        index.trie.nodes frozen.trie.nodes ∧
      (∀ query, (index.lookup query).RankedFrom index.table config.maxCompletions
        (frozen.toIndex.lookup query)) ∧
      ∃ d, SearchData.parse frozen.encode.toArray = .ok d ∧ ∀ query, ∃ results rest,
        d.lookup query = .ok (frozen.toIndex.lookup query) ∧ d.query query = .ok results ∧
        results.map (·.id) = (frozen.toIndex.lookup query).exact ++ rest ∧
        rest.Pairwise index.table.RanksBefore ∧
        ∀ id, id ∈ rest ↔ id ∈ (frozen.toIndex.lookup query).completions ∧
          id ∉ (frozen.toIndex.lookup query).exact := by
  have hindex : index.Bounded := hreach.bounded
  have hbound : index.trie.bound = config.maxCompletions := hreach.bound_eq
  have hfits : frozen.Fits := hindex.sound.fits hfinal
  have hsorted : frozen.toIndex = index.sorted := (finalize_eq_ok hfinal).1
  have hlookup : ∀ query, (index.lookup query).RankedFrom index.table config.maxCompletions
      (frozen.toIndex.lookup query) := by
    intro query
    rw [hsorted, ← hbound]
    exact hindex.lookup_rankedFrom query
  refine ⟨table_of_finalize hfinal, ?_, hlookup, frozen.reopened, hfits.parse_eq, fun query => ?_⟩
  · rw [hsorted, ← hbound]
    exact hindex.nodes_rankedFrom
  · obtain ⟨rest, hordered, hrest, hmem⟩ :=
      Hits.ordered_of_ranked (hlookup query).completions_ranked
    refine ⟨_, rest, hfits.lookup_eq query, hindex.sound.query_eq hfinal query, ?_, hrest, hmem⟩
    rw [ids_of_results, hordered]

/-- The sets of the swapped aliases are left in the wrong order, and then a tree with a bound of its own
is merged. -/
theorem Reachable.answers_ranked_swappedAliases :
    ∃ index frozen d results,
      (Index.empty {}).applyAll swappedAliases = .ok index ∧
      (index.mergeTrie (({ bound := 1 } : Trie).insert index.table
        ⟨Text.utf8 "xyz", 3, true⟩)).finalize = .ok frozen ∧
      (index.lookup "x").completions = [4, 2, 3] ∧ ¬ index.table.RanksBefore 4 2 ∧
      SearchData.parse frozen.encode.toArray = .ok d ∧ d.query "x" = .ok results ∧
      ∃ rest, results.map (·.id) = [2, 4] ++ rest ∧
        ∀ id, id ∈ rest ↔ id ∈ [2, 3, 4] ∧ id ∉ [2, 4] := by
  have hfacts : (((Index.empty {}).applyAll swappedAliases).toOption.bind fun index =>
      (index.mergeTrie (({ bound := 1 } : Trie).insert index.table
        ⟨Text.utf8 "xyz", 3, true⟩)).finalize.toOption.map fun frozen =>
          (index.table.size, (index.lookup "x").completions,
            decide (index.table.rankKey 4 < index.table.rankKey 2),
            frozen.toIndex.lookup "x")) =
      some (5, [4, 2, 3], false, { exact := [2, 4], completions := [2, 3, 4] }) := by
    decide +kernel
  obtain ⟨index, hindex, hfacts⟩ := Option.bind_eq_some_iff.mp hfacts
  obtain ⟨frozen, hfrozen, hfacts⟩ := Option.map_eq_some_iff.mp hfacts
  rw [toOption_eq_some] at hindex hfrozen
  simp only [Prod.mk.injEq, decide_eq_false_iff_not] at hfacts
  obtain ⟨hsize, hbefore, hranks, hafter⟩ := hfacts
  have hrun : Run Any (Index.empty {}) index := .of_applyAll hindex fun _ _ _ => trivial
  -- the other tree has room for one completion only
  have hpart : Trie.BuiltOver index.table.size
      (({ bound := 1 } : Trie).insert index.table ⟨Text.utf8 "xyz", 3, true⟩) :=
    .insert index.table (.empty 1) (by rw [hsize]; decide)
  have hreach : Reachable {} (index.mergeTrie (({ bound := 1 } : Trie).insert index.table
      ⟨Text.utf8 "xyz", 3, true⟩)) :=
    .mergeTrie hrun.reachable hpart
  obtain ⟨-, -, -, d, hparse, hquery⟩ := Reachable.answers_ranked hreach hfrozen
  obtain ⟨results, rest, -, hresults, hids, -, hmem⟩ := hquery "x"
  rw [hafter] at hids hmem
  exact ⟨index, frozen, d, results, hindex, hfrozen, hbefore, hranks, hparse, hresults, rest, hids,
    hmem⟩

end Index

end PrefixSearch
