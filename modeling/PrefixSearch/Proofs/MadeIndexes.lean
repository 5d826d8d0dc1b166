import PrefixSearch.Build
import PrefixSearch.Proofs.Histories
import PrefixSearch.Proofs.PartwiseBuild
import PrefixSearch.Proofs.RegisteredTable

/-!
# All the ways to make an index

An index is built from a list of entries, one by one or in parts, and then changed by operations and by
trees over its table.  Whatever was done, the aliases are a forest and the tree is sound over the
table.
-/

namespace PrefixSearch

variable [Search]

/-! ## What is built from entries -/

namespace Trie.Sound

variable {size : Nat}

theorem ofTerms (table : ResultTable) (bound : Nat) {terms : List Term}
    (hterms : ∀ term ∈ terms, term.id < size) : (Trie.ofTerms table bound terms).Sound size :=
  (Sound.empty size bound).insertAll hterms

theorem mergeChunks {table : ResultTable} {parts : List (List Term)} {t : Trie}
    (ht : t.Sound size) (hparts : ∀ term ∈ parts.flatten, term.id < size) :
    (Trie.mergeChunks table parts t).Sound size := by
  induction parts generalizing t with
  | nil => exact ht
  | cons part parts ih =>
      rw [List.flatten_cons, List.forall_mem_append] at hparts
      rw [mergeChunks_cons]
      exact ih (ht.merge (ofTerms table t.bound hparts.1)) hparts.2

end Trie.Sound

namespace Index

variable {config : Config} {entries : List Entry} {terms : List Term} {last : Index}

theorem sound_of_registerAll
    (hregister : (empty config).registerAll entries = .ok (terms, last)) : last.Sound := by
  have hrun : entries.foldlM registerNext ([], empty config) = .ok (terms, last) := hregister
  refine foldlM_keeps (P := fun state => state.2.Sound) hrun ?_ (Sound.empty config)
  rintro ⟨done, index⟩ entry ⟨all, next⟩ hindex hstep
  obtain ⟨id, more, hnext, -⟩ := registerNext_eq_ok hstep
  exact (hindex.register hnext).1

/-- Both ways to build give the table of the registered entries, and a sound tree over it. -/
theorem build_of_registerAll
    (hregister : (empty config).registerAll entries = .ok (terms, last)) (inParts : Bool) :
    ∃ trie, build config inParts entries = .ok { last with trie } ∧
      ({ last with trie } : Index).Sound := by
  obtain ⟨hterms, -, -⟩ := registerAll_eq_ok hregister
  have hsound := sound_of_registerAll hregister
  have hids : ∀ term ∈ terms, term.id < last.table.size := fun term hterm =>
    (hterms.isKept (List.mem_map_of_mem hterm)).1
  cases inParts with
  | false =>
      exact ⟨_, addAll_of_registerAll hregister, Trie.Sound.ofTerms _ _ hids, hsound.forest⟩
  | true =>
      have hempty : (Trie.ofTerms last.table config.maxCompletions []).Sound last.table.size :=
        Trie.Sound.empty _ _
      refine ⟨_, buildInParts_of_registerAll hregister, hempty.mergeChunks ?_, hsound.forest⟩
      rwa [Term.flatten_chunks]

/-- What could be built was registered before. -/
theorem registerAll_of_build {inParts : Bool} {index : Index}
    (hbuild : build config inParts entries = .ok index) :
    ∃ terms last, (empty config).registerAll entries = .ok (terms, last) := by
  cases hregister : (empty config).registerAll entries with
  | ok state => exact ⟨state.1, state.2, rfl⟩
  | error fault =>
      obtain ⟨hparts, hadd⟩ := build_of_error hregister
      cases inParts with
      | false => cases hadd.symm.trans hbuild
      | true => cases hparts.symm.trans hbuild

theorem sound_of_build {inParts : Bool} {index : Index}
    (hbuild : build config inParts entries = .ok index) : index.Sound := by
  obtain ⟨terms, last, hregister⟩ := registerAll_of_build hbuild
  obtain ⟨trie, hsame, hsound⟩ := build_of_registerAll hregister inParts
  cases hsame.symm.trans hbuild
  exact hsound

/-! ## What is made of it -/

/-- The indexes that can be made: built from entries, and changed by operations and by trees over their
tables. -/
inductive Made (config : Config) : Index → Prop
  | build {inParts : Bool} {entries : List Entry} {index : Index}
      (hbuild : build config inParts entries = .ok index) : Made config index
  | apply {index next : Index} {op : Operation} (hmade : Made config index)
      (happly : index.apply op = .ok next) : Made config next
  | mergeTrie {index : Index} {other : Trie} (hmade : Made config index)
      (hother : Trie.BuiltOver index.table.size other) : Made config (index.mergeTrie other)

theorem Made.sound {index : Index} (hmade : Made config index) : index.Sound := by
  induction hmade with
  | build hbuild => exact sound_of_build hbuild
  | apply _ happly ih => exact ih.apply happly
  | mergeTrie _ hother ih => exact ih.mergeTrie hother

/-- A run from an empty index makes an index. -/
theorem Run.made {may : Index → Operation → Prop} {index : Index}
    (hrun : Run may (empty config) index) : Made config index := by
  refine hrun.keeps (fun _ _ _ hmade _ happly => hmade.apply happly) ?_
  have hbuild : Index.build config false [] = .ok (empty config) := rfl
  exact .build hbuild

end Index

end PrefixSearch
