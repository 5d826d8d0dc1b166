import PrefixSearch.Proofs.Histories
import PrefixSearch.Proofs.QueryResults

/-!
# Results read from a file

Whatever was done to an index, the file that it is frozen to holds a result for every ID of the table
and for no other one.  A result has the name, the flags, the suffix length and the target of its own
entry, and the URL and the kind of the entry at the end of its chain of aliases.  The kind has a row
in the type map, which says how the result is shown.  A query finds IDs of the table only, so it
never fails.
-/

namespace PrefixSearch

/-- What the table says of the result with the ID. -/
structure ResultTable.Describes (t : ResultTable) (id : Id) (result : SearchResult) : Prop where
  id_eq : result.id = id
  name_eq : result.name = (t.get id).name
  deprecated_eq : result.deprecated = (t.get id).flags.isDeprecated
  deleted_eq : result.deleted = (t.get id).flags.isDeleted
  suffixLength_eq : result.suffixLength = (t.get id).suffixLength
  target_eq : result.target = (t.get id).target
  url_eq : result.url = (t.get (t.resolve id)).url
  kind_eq : result.kind = (t.get (t.resolve id)).kind
  /-- Class and label stand in the row of the type map for the kind. -/
  row_eq : t.typeMap.find? (·.kind = result.kind) =
    some { kind := result.kind, cssClass := result.cssClass, label := result.label }

namespace ResultTable

/-- The result of an entry is as the table describes it. -/
theorem AliasForest.describes_result {t : ResultTable} (ht : t.AliasForest) {id : Id}
    (hid : id < t.size) : t.Describes id (t.result id) where
  id_eq := rfl
  name_eq := rfl
  deprecated_eq := rfl
  deleted_eq := rfl
  suffixLength_eq := rfl
  target_eq := rfl
  url_eq := rfl
  kind_eq := rfl
  row_eq := by
    obtain ⟨steps, -, -, hlast⟩ := ht.chain_resolve hid
    exact find?_typeMap hid (ht.kind_of_isEnd (ht.resolve_lt hid) hlast)

end ResultTable

namespace SearchData

/-- There is no record of an ID that is not below the number of results. -/
theorem result_of_resultCount_le {d : SearchData} {id : Id} (hid : d.resultCount ≤ id) :
    d.result id = .error (.idOutOfRange id) := by
  have hrecord : d.record id = .error (.idOutOfRange id) := by
    unfold record
    rw [if_pos hid]
    rfl
  unfold result
  rw [hrecord]
  rfl

end SearchData

namespace Index

variable {config : Config} {index : Index} {frozen : Frozen}

theorem Sound.sorted (hindex : index.Sound) : index.sorted.Sound :=
  ⟨hindex.trie.sort, hindex.forest⟩

/-- A lookup finds IDs of the table only, each once in each set. -/
theorem Sound.lookup (hindex : index.Sound) (query : String) :
    (index.lookup query).Within index.table.size :=
  hindex.trie.lookup _

/-- Freezing an index keeps its table. -/
theorem table_of_finalize (hfinal : index.finalize = .ok frozen) : frozen.table = index.table := by
  rw [(finalize_eq_ok hfinal).1]
  rfl

/-- What a frozen index finds is in the table. -/
theorem Sound.lt_of_mem_ordered (hindex : index.Sound) (hfinal : index.finalize = .ok frozen)
    {query : String} {id : Id} (hid : id ∈ (frozen.toIndex.lookup query).ordered) :
    id < index.table.size := by
  have hwithin : (frozen.toIndex.lookup query).Within index.table.size := by
    rw [(finalize_eq_ok hfinal).1]
    exact hindex.sorted.lookup query
  rcases (Hits.mem_ordered hwithin.2.1).mp hid with hexact | hcompletion
  · exact hwithin.1.2 id hexact
  · exact hwithin.2.2 id hcompletion

/-- Every query of the file of a sound index lists the results that the frozen index finds. -/
theorem Sound.query_eq (hindex : index.Sound) (hfinal : index.finalize = .ok frozen)
    (query : String) : frozen.reopened.query query =
      .ok ((frozen.toIndex.lookup query).ordered.map index.table.result) := by
  have hids : ∀ id ∈ (frozen.toIndex.lookup query).ordered, id < index.table.size :=
    fun _ hid => hindex.lt_of_mem_ordered hfinal hid
  have hforest : index.table.AliasForest := hindex.forest
  rw [← table_of_finalize hfinal] at hids hforest ⊢
  exact (hindex.fits hfinal).query_eq hforest hids

/-- The file of an index holds a result for every ID of the table, as the table describes it, and
for no other ID.  So it has an answer to every query. -/
theorem Reachable.decodes_results [Search] (hreach : Reachable config index)
    (hfinal : index.finalize = .ok frozen) :
    ∃ d, SearchData.parse frozen.encode.toArray = .ok d ∧
      d.typeMap = index.table.typeMap ∧
      (∀ id < index.table.size, ∃ result, d.result id = .ok result ∧
        index.table.Describes id result) ∧
      (∀ id, index.table.size ≤ id → d.result id = .error (.idOutOfRange id)) ∧
      ∀ query, ∃ results, d.query query = .ok results ∧
        results.map (·.id) = (frozen.toIndex.lookup query).ordered ∧
        ∀ result ∈ results, index.table.Describes result.id result := by
  have hsound : index.Sound := hreach.sound
  have hfits : frozen.Fits := hsound.fits hfinal
  have htable : frozen.table = index.table := table_of_finalize hfinal
  have hforest : frozen.table.AliasForest := by
    rw [htable]
    exact hsound.forest
  refine ⟨frozen.reopened, hfits.parse_eq, congrArg ResultTable.typeMap htable, ?_, ?_, ?_⟩
  · intro id hid
    refine ⟨index.table.result id, ?_, hsound.forest.describes_result hid⟩
    rw [← htable] at hid ⊢
    exact hfits.result_eq hforest hid
  · intro id hid
    apply SearchData.result_of_resultCount_le
    show frozen.table.size ≤ id
    rwa [htable]
  · intro query
    refine ⟨_, hsound.query_eq hfinal query, ids_of_results _ _, ?_⟩
    intro result hmem
    obtain ⟨id, hid, rfl⟩ := List.mem_map.mp hmem
    exact hsound.forest.describes_result (hsound.lt_of_mem_ordered hfinal hid)

/-- A page, a duplicate of it, aliases of both, and a function that is merged into the page. -/
def decodedRun : List Operation := [
  .add { name := "Vector", url := "v.html", kind := .page },
  .add { name := "vector", url := "v.html", kind := .function,
         flags := Flags.none.setDeprecated },
  .addAlias "vec" 1,
  .addAlias "v" 2,
  .pushEntry { name := "Matrix", url := "m.html", kind := .function },
  .insert "mat" 4 true,
  .addAlias "m" 4,
  .mergeDuplicate 0 4]

theorem Reachable.decodes_results_decodedRun :
    ∃ index frozen d, (Index.empty {}).applyAll decodedRun = .ok index ∧
      index.finalize = .ok frozen ∧ SearchData.parse frozen.encode.toArray = .ok d ∧
      (∃ result, d.result 5 = .ok result ∧
        (result.name, result.url, result.kind, result.target) = ("m", "v.html", .page, some 0)) ∧
      d.result 6 = .error (.idOutOfRange 6) := by
  have hrun : (((Index.empty {}).applyAll decodedRun).toOption.bind fun index =>
      index.finalize.toOption.map fun _ => (index.table.size, (index.table.get 5).name,
        (index.table.get 5).target, index.table.get (index.table.resolve 5))) =
          some (6, "m", some 0, { name := "Vector", url := "v.html", kind := .page }) := by
    decide +kernel
  obtain ⟨index, hindex, hrun⟩ := Option.bind_eq_some_iff.mp hrun
  obtain ⟨frozen, hfrozen, hfacts⟩ := Option.map_eq_some_iff.mp hrun
  rw [toOption_eq_some] at hindex hfrozen
  simp only [Prod.mk.injEq] at hfacts
  obtain ⟨hsize, hname, htarget, hresolved⟩ := hfacts
  have hfirst : Run Any (Index.empty {}) index := Run.of_applyAll hindex fun _ _ _ => trivial
  have hreach : Reachable {} index := hfirst.reachable
  obtain ⟨d, hparse, -, hbelow, hbehind, -⟩ := hreach.decodes_results hfrozen
  refine ⟨index, frozen, d, hindex, hfrozen, hparse, ?_, hbehind 6 (Nat.le_of_eq hsize)⟩
  obtain ⟨result, hresult, hdescribes⟩ := hbelow 5 (by rw [hsize]; decide)
  refine ⟨result, hresult, ?_⟩
  rw [hdescribes.name_eq, hdescribes.url_eq, hdescribes.kind_eq, hdescribes.target_eq, hname,
    htarget, hresolved]

end Index

end PrefixSearch
