import PrefixSearch.Proofs.Registration
import PrefixSearch.Proofs.Trie.Contents

/-!
# Adding entries

Registering reads the table and never the tree, and a new duplicate has not got into the tree yet.
So entries may be registered first and their texts added afterwards, under the final table: this
gives the same index as adding one entry after the other.
-/

namespace PrefixSearch

/-! ## Trees that do not mention a result -/

namespace Forest

theorem mapHits_eq_self {g : Hits → Hits} {f : Forest} {above : List UInt8}
    (hnodes : ∀ path hits, (path, hits) ∈ f.nodes above → g hits = hits) : f.mapHits g = f := by
  induction f generalizing above with
  | nil => rfl
  | cons label hits below next ihBelow ihNext =>
      have hhere : g hits = hits := hnodes _ hits List.mem_cons_self
      have hbelow : below.mapHits g = below := ihBelow fun path found hmem =>
        hnodes path found (List.mem_cons_of_mem _ (List.mem_append_left _ hmem))
      have hnext : next.mapHits g = next := ihNext fun path found hmem =>
        hnodes path found (List.mem_cons_of_mem _ (List.mem_append_right _ hmem))
      rw [mapHits, hhere, hbelow, hnext]

end Forest

namespace Trie

variable [Search] (table : ResultTable)

/-- Replacing a result changes nothing where no place holds it. -/
theorem replace_eq_self {t : Trie} {old : Id} (new : Id) (ht : t.forest.WellFormed)
    (hexact : ∀ path, old ∉ (t.place path).hits.exact)
    (hcompletions : ∀ path, old ∉ (t.place path).hits.completions) :
    t.replace table old new = t := by
  have hsame : ∀ path, Hits.replace table t.bound old new (t.place path).hits =
      (t.place path).hits := by
    intro path
    simp [Hits.replace, Ranked.replace, hexact path, hcompletions path]
  have hroot : Hits.replace table t.bound old new t.hits = t.hits := hsame []
  have hforest : t.forest.mapHits (Hits.replace table t.bound old new) = t.forest := by
    have hnodes : ∀ path hits, (path, hits) ∈ t.forest.nodes [] →
        Hits.replace table t.bound old new hits = hits := by
      intro path hits hmem
      rw [← (place_of_mem_nodes ht (List.mem_cons_of_mem _ hmem)).2]
      exact hsame path
    exact Forest.mapHits_eq_self hnodes
  rw [replace, mapHits, hroot, hforest]

/-- A tree of texts holds results of these texts only. -/
theorem mem_ids_of_mem_place {bound : Nat} {terms : List Term} {path : List UInt8} {id : Id}
    (hid : id ∈ ((ofTerms table bound terms).place path).hits.exact ∨
      id ∈ ((ofTerms table bound terms).place path).hits.completions) :
    id ∈ terms.map Term.id := by
  rw [hits_place_ofTerms] at hid
  rcases hid with hexact | hcompletion
  · have hmem := (Ranked.mem_of_mem_insertAll hexact).resolve_right List.not_mem_nil
    obtain ⟨term, hterm, -, -, rfl⟩ := Term.mem_exactIds.mp hmem
    exact List.mem_map_of_mem hterm
  · have hmem := (Ranked.mem_of_mem_insertAll hcompletion).resolve_right List.not_mem_nil
    exact Term.mem_ids_of_mem_completionIds hmem

theorem replace_ofTerms {bound : Nat} {terms : List Term} {old : Id} (new : Id) (u : ResultTable)
    (hold : old ∉ terms.map Term.id) :
    (ofTerms table bound terms).replace u old new = ofTerms table bound terms :=
  replace_eq_self u new (wellFormed_ofTerms table bound terms)
    (fun _ hmem => hold (mem_ids_of_mem_place table (Or.inl hmem)))
    (fun _ hmem => hold (mem_ids_of_mem_place table (Or.inr hmem)))

/-- Tables that agree on the results of some texts give the same tree. -/
theorem ofTerms_congr {t u : ResultTable} (bound : Nat) {terms : List Term}
    (hsame : ∀ id ∈ terms.map Term.id, t.SameFor u id) :
    ofTerms t bound terms = ofTerms u bound terms := by
  refine eq_of_places (wellFormed_ofTerms t bound terms) (wellFormed_ofTerms u bound terms)
    ?_ ?_ ?_
  · rw [bound_ofTerms, bound_ofTerms]
  · intro text
    rw [isNode_place_ofTerms, isNode_place_ofTerms]
  · intro text
    have hexact : ∀ id ∈ Term.exactIds terms text, t.SameFor u id := by
      intro id hid
      obtain ⟨term, hterm, -, -, rfl⟩ := Term.mem_exactIds.mp hid
      exact hsame term.id (List.mem_map_of_mem hterm)
    have hcompletions : ∀ id ∈ Term.completionIds terms text, t.SameFor u id := fun id hid =>
      hsame id (Term.mem_ids_of_mem_completionIds hid)
    rw [hits_place_ofTerms, hits_place_ofTerms, Ranked.insertAll_congr hexact,
      Ranked.insertAll_congr hcompletions]

end Trie

/-! ## Adding entries is registering them and adding their texts -/

namespace Index

variable [Search]

/-- The index with the tree of some texts. -/
def withTree (index : Index) (terms : List Term) : Index :=
  { index with trie := Trie.ofTerms index.table index.config.maxCompletions terms }

/-- A registration depends on the tree only where it replaces the new ID. -/
theorem register_withTrie (index : Index) (trie : Trie) (entry : Entry)
    (hkeep : ∀ table kept, trie.replace table index.table.size kept = trie) :
    ({ index with trie } : Index).register entry =
      (index.register entry).map fun result =>
        (result.1, result.2.1, { result.2.2 with trie }) := by
  unfold register
  cases Text.validateAll (textsOf entry) with
  | error fault => rfl
  | ok _ =>
      cases hpush : index.table.push entry with
      | error fault => rfl
      | ok pushed =>
          obtain ⟨id, table⟩ := pushed
          obtain ⟨-, -, rfl, rfl⟩ := ResultTable.push_eq_ok hpush
          have hsame : ({ index with trie } : Index).duplicateOf? entry =
              index.duplicateOf? entry := rfl
          rw [hsame]
          cases index.duplicateOf? entry with
          | none => rfl
          | some kept =>
              cases hmerge : (index.table.append { entry }).mergeInto kept index.table.size with
              | error fault =>
                  simp [mergeDuplicate, hmerge, bind, Except.bind, Except.mapError, Except.map]
              | ok merged =>
                  simp [mergeDuplicate, hmerge, hkeep, bind, Except.bind, Except.mapError,
                    Except.map, pure, Except.pure, normalize]

/-- What a registration never changes, and what it leaves of the earlier table. -/
theorem register_frame {index next : Index} {terms more : List Term} {entry : Entry} {id : Id}
    (hterms : index.Collected terms) (hregister : index.register entry = .ok (id, more, next)) :
    next.config = index.config ∧
      (index.trie = { bound := index.config.maxCompletions } → next.trie = index.trie) ∧
      ∃ row, next.table.rows = (index.table.append row).rows := by
  have houtcome := register_outcome hregister
  cases houtcome with
  | fresh => exact ⟨rfl, fun _ => rfl, { entry }, tableWith_rows index entry⟩
  | duplicate _ hkept =>
      refine ⟨rfl, ?_, Row.mergeInto id { entry }, tableMerged_rows hterms.grown entry hkept⟩
      intro hempty
      rw [hempty]
      rfl

theorem add_withTree {index : Index} {terms : List Term} (hterms : index.Collected terms)
    (entry : Entry) :
    (index.withTree terms).add entry =
      (index.register entry).map fun result =>
        (result.1, result.2.2.withTree (terms ++ result.2.1)) := by
  have hsize : index.table.size ∉ terms.map Term.id := fun hmem =>
    Nat.lt_irrefl _ (hterms.isKept hmem).1
  -- the new entry is in no set yet, so merging it replaces nothing in the tree
  have hregister := index.register_withTrie
    (Trie.ofTerms index.table index.config.maxCompletions terms) entry
    fun table kept => Trie.replace_ofTerms index.table kept table hsize
  rw [add, withTree, hregister]
  cases hresult : index.register entry with
  | error fault => rfl
  | ok result =>
      obtain ⟨id, more, next⟩ := result
      obtain ⟨hconfig, -, row, hrows⟩ := register_frame hterms hresult
      -- the earlier texts make the same tree under the longer table
      have hagree : ∀ old ∈ terms.map Term.id, index.table.SameFor next.table old := fun old hold =>
        ResultTable.sameFor_of_rows hterms.grown.downward hrows (hterms.isKept hold).1
      have htree : Trie.ofTerms next.table next.config.maxCompletions (terms ++ more) =
          (Trie.ofTerms index.table index.config.maxCompletions terms).insertAll next.table
            more := by
        rw [Trie.ofTerms_append, hconfig, ← Trie.ofTerms_congr _ hagree]
      simp only [Except.map, withTree, htree]
      rfl

/-- One step of `registerAll`. -/
def registerNext (state : List Term × Index) (entry : Entry) :
    Except IndexError (List Term × Index) := do
  let (_, more, index) ← state.2.register entry
  return (state.1 ++ more, index)

theorem registerNext_eq_ok {terms all : List Term} {index next : Index} {entry : Entry}
    (hstep : registerNext (terms, index) entry = .ok (all, next)) :
    ∃ id more, index.register entry = .ok (id, more, next) ∧ all = terms ++ more := by
  obtain ⟨⟨id, more, found⟩, hregister, hresult⟩ := except_bind_eq_ok.mp hstep
  obtain ⟨rfl, rfl⟩ := Prod.mk.inj (Except.ok.inj hresult)
  exact ⟨id, more, hregister, rfl⟩

/-- What every run of registrations keeps. -/
theorem collected_foldlM {entries : List Entry} {terms all : List Term} {index last : Index}
    (hterms : index.Collected terms)
    (hrun : entries.foldlM registerNext (terms, index) = .ok (all, last)) :
    last.Collected all ∧ last.config = index.config ∧
      (index.trie = { bound := index.config.maxCompletions } → last.trie = index.trie) := by
  induction entries generalizing terms index with
  | nil =>
      obtain ⟨rfl, rfl⟩ := Prod.mk.inj (Except.ok.inj hrun)
      exact ⟨hterms, rfl, fun _ => rfl⟩
  | cons entry entries ih =>
      rw [List.foldlM_cons] at hrun
      obtain ⟨⟨mid, next⟩, hstep, hrest⟩ := except_bind_eq_ok.mp hrun
      obtain ⟨id, more, hregister, rfl⟩ := registerNext_eq_ok hstep
      obtain ⟨hconfig, htrie, -⟩ := register_frame hterms hregister
      obtain ⟨hlast, hlastConfig, hlastTrie⟩ := ih (hterms.register hregister) hrest
      refine ⟨hlast, hlastConfig.trans hconfig, fun hempty => ?_⟩
      have hnext : next.trie = { bound := next.config.maxCompletions } := by
        rw [htrie hempty, hconfig, hempty]
      exact (hlastTrie hnext).trans (htrie hempty)

theorem foldlM_add {entries : List Entry} {terms : List Term} {index : Index}
    (hterms : index.Collected terms) :
    (index.withTree terms).addAll entries =
      (entries.foldlM registerNext (terms, index)).map fun result =>
        result.2.withTree result.1 := by
  induction entries generalizing terms index with
  | nil => rfl
  | cons entry entries ih =>
      rw [addAll, List.foldlM_cons, List.foldlM_cons, add_withTree hterms]
      cases hresult : index.register entry with
      | error fault =>
          rw [registerNext, hresult]
          rfl
      | ok result =>
          obtain ⟨id, more, next⟩ := result
          rw [registerNext, hresult]
          exact ih (hterms.register hresult)

/-- Adding entries one after the other gives the tree of the texts that registering them
collects, and fails where registering them fails. -/
theorem addAll_eq (config : Config) (entries : List Entry) :
    (empty config).addAll entries =
      ((empty config).registerAll entries).map fun result => result.2.withTree result.1 :=
  foldlM_add (collected_empty config)

/-- Registering entries into an index without entries collects their texts and leaves the tree as it
was. -/
theorem registerAll_eq_ok {config : Config} {entries : List Entry} {terms : List Term}
    {last : Index} (hregister : (empty config).registerAll entries = .ok (terms, last)) :
    last.Collected terms ∧ last.config = config ∧
      last.trie = Trie.ofTerms last.table config.maxCompletions [] := by
  obtain ⟨hterms, hconfig, htrie⟩ := collected_foldlM (collected_empty config) hregister
  exact ⟨hterms, hconfig, htrie rfl⟩

theorem addAll_eq_ok {config : Config} {entries : List Entry} {index : Index}
    (hadd : (empty config).addAll entries = .ok index) :
    ∃ terms last, (empty config).registerAll entries = .ok (terms, last) ∧
      last.Collected terms ∧ last.config = config ∧ index = last.withTree terms := by
  rw [addAll_eq] at hadd
  cases hregister : (empty config).registerAll entries with
  | error fault =>
      rw [hregister] at hadd
      cases hadd
  | ok result =>
      obtain ⟨terms, last⟩ := result
      rw [hregister] at hadd
      obtain ⟨hterms, hconfig, -⟩ := registerAll_eq_ok hregister
      exact ⟨terms, last, rfl, hterms, hconfig, (Except.ok.inj hadd).symm⟩

end Index

end PrefixSearch
