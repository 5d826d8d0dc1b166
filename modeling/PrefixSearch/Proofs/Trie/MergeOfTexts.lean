import PrefixSearch.Proofs.Trie.Merging
import PrefixSearch.Text.Utf8

/-!
# Merging two trees of texts

Two trees cut their edges at different places, and each has a bounded set at every node that may
have forgotten results.  The nodes and the exact results of the merged tree are those of the tree of
all texts nevertheless.  Its completions are, if what each tree forgot at a place is forgotten there
by the tree of all texts too, and this is so as long as ranks follow IDs among results that look the
same.
-/

namespace PrefixSearch

namespace Trie

section

variable [Search] {table : ResultTable} {bound : Nat} {left right : List Term}

/-- A place of the merged tree has the completions of the one tree, into which those of the other
were put. -/
theorem completions_place_merge (table : ResultTable) (bound : Nat) (left right : List Term)
    (text : List UInt8) :
    (((ofTerms table bound left).merge table (ofTerms table bound right)).place
        text).hits.completions =
      Ranked.insertAll table (some bound)
        (Ranked.insertAll table (some bound) (Term.completionIds right text) [])
        (Ranked.insertAll table (some bound) (Term.completionIds left text) []) := by
  rw [place_merge table (wellFormed_ofTerms table bound left)
    (wellFormed_ofTerms table bound right)]
  simp only [Place.merge, Hits.absorb, hits_place_ofTerms, bound_ofTerms]

/-- The merged tree is the tree of all texts exactly if the completions of every text are the best
of both sides. -/
theorem merge_ofTerms_iff :
    (ofTerms table bound left).merge table (ofTerms table bound right) =
        ofTerms table bound (left ++ right) ↔
      ∀ text, Ranked.insertAll table (some bound)
          (Ranked.insertAll table (some bound) (Term.completionIds right text) [])
          (Ranked.insertAll table (some bound) (Term.completionIds left text) []) =
        Ranked.insertAll table (some bound) (Term.completionIds (left ++ right) text) [] := by
  constructor
  · intro hsame text
    rw [← completions_place_merge, hsame, hits_place_ofTerms]
  · intro hsame
    have hform := (holds_ofTerms table bound left).merge (holds_ofTerms table bound right)
    refine hform.eq_ofTerms (bound_ofTerms table bound left) fun text => ?_
    rw [completions_place_merge, hsame]

/-- If the order does not count among the completions of any text, merging loses nothing. -/
theorem merge_ofTerms (horder : ∀ text, Ranked.OrderIrrelevant table (some bound)
    (Term.completionIds (left ++ right) text)) :
    (ofTerms table bound left).merge table (ofTerms table bound right) =
      ofTerms table bound (left ++ right) := by
  refine merge_ofTerms_iff.mpr fun text => ?_
  have hhere := horder text
  rw [Term.completionIds_append] at hhere ⊢
  exact Ranked.insertAll_insertAll hhere

/-- Merging loses nothing if the ranks of results that look the same follow their IDs. -/
theorem merge_ofTerms_of_ranks (hranks : table.RanksFollowIds (· ∈ (left ++ right).map Term.id)) :
    (ofTerms table bound left).merge table (ofTerms table bound right) =
      ofTerms table bound (left ++ right) := by
  refine merge_ofTerms fun text => ?_
  refine Ranked.orderIrrelevant_some (Ranked.settled_of_ranksFollowIds bound ?_)
  exact hranks.mono fun id hid => Term.mem_ids_of_mem_completionIds hid

/-- Let the ranks of results that look the same follow their IDs.  Then merging the tree of some
texts into the tree of others gives the tree to which all texts were added one after the other: the
same paths are nodes, and every node has the same exact results and the same completions. -/
theorem merge_insertAll (table : ResultTable) (bound : Nat) (left right : List Term)
    (hranks : table.RanksFollowIds (· ∈ (left ++ right).map Term.id)) :
    let empty : Trie := { bound }
    let merged := (empty.insertAll table left).merge table (empty.insertAll table right)
    let whole := (empty.insertAll table left).insertAll table right
    merged = whole ∧
      ∀ path hits, (path, hits) ∈ merged.nodes ↔ (path, hits) ∈ whole.nodes := by
  intro empty merged whole
  have hsame : merged = whole := by
    calc merged = ofTerms table bound (left ++ right) := merge_ofTerms_of_ranks hranks
      _ = whole := ofTerms_append table bound left right
  rw [hsame]
  exact ⟨rfl, fun _ _ => Iff.rfl⟩

end

/-- A page, a function and two aliases of the page with one name. -/
def forkTable : ResultTable where
  rows := #[
    { entry := { name := "min", url := "min.html", kind := .page } },
    { entry := { name := "minute", url := "minute.html", kind := .function } },
    { entry := .aliasTo "minimum" 0 },
    { entry := .aliasTo "minimum" 0 }]

/-- The edge of `minimum` in the first tree has to be cut at `min` and at `mini`, and there two
results look the same and a third one is over the bound. -/
theorem merge_insertAll_forkTable :
    let left : List Term := [
      { text := Text.utf8 "minimum", id := 3, exact := true },
      { text := Text.utf8 "max", id := 0, exact := false }]
    let right : List Term := [
      { text := Text.utf8 "minute", id := 1, exact := true },
      { text := Text.utf8 "mini", id := 2, exact := true },
      { text := Text.utf8 "min", id := 0, exact := true }]
    let empty : Trie := { bound := 2 }
    let merged := (empty.insertAll forkTable left).merge forkTable
      (empty.insertAll forkTable right)
    forkTable.RanksFollowIds (· ∈ (left ++ right).map Term.id) ∧
      merged = (empty.insertAll forkTable left).insertAll forkTable right ∧
      merged.nodes.map (fun node => (node.1.length, node.2.exact, node.2.completions)) =
        [(0, [], [0, 2]), (1, [], [0, 2]), (3, [], [0]), (3, [0], [0, 2]), (4, [2], [2]),
          (7, [3], [3]), (6, [1], [1])] := by
  intro left right empty merged
  have hranks : forkTable.RanksFollowIds (· ∈ (left ++ right).map Term.id) := by decide
  exact ⟨hranks, (merge_insertAll forkTable 2 left right hranks).1, by decide⟩

end Trie

end PrefixSearch
