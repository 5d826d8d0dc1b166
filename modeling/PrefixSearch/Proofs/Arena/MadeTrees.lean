import PrefixSearch.Proofs.Arena.SameTree
import PrefixSearch.Proofs.MadeIndexes

/-!
# Arenas of the trees of indexes

The tree of every index that can be made is also made in an arena, by the same additions, merges and
replacements, and so is the tree that the index is frozen with.
-/

namespace PrefixSearch

variable [Search]

namespace Arena

/-- Add texts one after the other. -/
def insertAll (table : ResultTable) (terms : List Term) (a : Arena) : Arena :=
  terms.foldl (fun a term => a.insert table term) a

namespace Alike

variable {a : Arena} {t : Trie}

theorem insertAll (ha : Alike a t) (table : ResultTable) (terms : List Term) :
    Alike (a.insertAll table terms) (t.insertAll table terms) := by
  induction terms generalizing a t with
  | nil => exact ha
  | cons term terms ih => exact ih (ha.insert table term)

theorem ofTerms (table : ResultTable) (bound : Nat) (terms : List Term) :
    Alike (Arena.insertAll table terms { bound }) (Trie.ofTerms table bound terms) :=
  (new bound).insertAll table terms

theorem exists_mergeChunks {table : ResultTable} (parts : List (List Term)) (ha : Alike a t) :
    ∃ b, Alike b (Trie.mergeChunks table parts t) := by
  induction parts generalizing a t with
  | nil => exact ⟨a, ha⟩
  | cons part parts ih => exact ih (ha.merge table (ofTerms table t.bound part))

end Alike

end Arena

/-- Every tree that is built over a table is made in an arena, too. -/
theorem Trie.BuiltOver.exists_alike {size : Nat} {t : Trie} (hbuilt : BuiltOver size t) :
    ∃ a, Arena.Alike a t := by
  induction hbuilt with
  | empty bound => exact ⟨_, .new bound⟩
  | insert table _ _ ih =>
      obtain ⟨a, ha⟩ := ih
      exact ⟨_, ha.insert table _⟩
  | merge table _ _ ih ihOther =>
      obtain ⟨a, ha⟩ := ih
      obtain ⟨b, hb⟩ := ihOther
      exact ⟨_, ha.merge table hb⟩
  | replace table _ _ ih =>
      obtain ⟨a, ha⟩ := ih
      exact ⟨_, ha.replace table _ _⟩
  | sort table _ ih =>
      obtain ⟨a, ha⟩ := ih
      exact ⟨_, ha.sort table⟩

namespace Index

variable {config : Config} {index next : Index} {op : Operation}

theorem exists_alike_of_build {inParts : Bool} {entries : List Entry}
    (hbuild : build config inParts entries = .ok index) : ∃ a, Arena.Alike a index.trie := by
  obtain ⟨terms, last, hregister⟩ := registerAll_of_build hbuild
  cases inParts with
  | false =>
      cases (addAll_of_registerAll hregister).symm.trans hbuild
      exact ⟨_, Arena.Alike.ofTerms _ _ _⟩
  | true =>
      cases (buildInParts_of_registerAll hregister).symm.trans hbuild
      exact (Arena.Alike.ofTerms last.table config.maxCompletions []).exists_mergeChunks _

theorem Sound.exists_alike_apply (hindex : index.Sound) (happly : index.apply op = .ok next)
    (halike : ∃ a, Arena.Alike a index.trie) : ∃ a, Arena.Alike a next.trie := by
  refine hindex.apply_keeps (P := fun mid => ∃ a, Arena.Alike a mid.trie) happly ?_ ?_ halike
  · rintro mid last - ⟨a, ha⟩ hgrows
    cases hgrows with
    | row => exact ⟨a, ha⟩
    | text => exact ⟨_, ha.insert _ _⟩
  · intro kept gone _
    obtain ⟨a, ha⟩ := halike
    exact ⟨_, ha.replace _ _ _⟩

/-- The tree of every index that can be made is made in an arena, too. -/
theorem Made.exists_alike (hmade : Made config index) : ∃ a, Arena.Alike a index.trie := by
  induction hmade with
  | build hbuild => exact exists_alike_of_build hbuild
  | apply hmade happly ih => exact hmade.sound.exists_alike_apply happly ih
  | mergeTrie _ hother ih =>
      obtain ⟨a, ha⟩ := ih
      obtain ⟨b, hb⟩ := hother.exists_alike
      exact ⟨_, ha.merge _ hb⟩

end Index

end PrefixSearch
