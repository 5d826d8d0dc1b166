import PrefixSearch.Proofs.AliasForest
import PrefixSearch.Proofs.Registration
import PrefixSearch.Proofs.Trie.Members

/-!
# What every sequence of operations keeps

An index may be built in many ways: by entries that are added with their texts, by entries and texts
that are added on their own, by merging duplicates, and by merging trees that were built elsewhere
over the same table.  Whatever the order, and however the sets are searched, the aliases stay a forest,
the tree stays well formed, and its sets hold results of the table only, each once.
-/

namespace PrefixSearch

namespace Index

/-- The tree is sound over the table, whose aliases are a forest. -/
structure Sound (index : Index) : Prop where
  trie : index.trie.Sound index.table.size
  forest : index.table.AliasForest

namespace Sound

variable {index next : Index}

theorem empty (config : Config) : (Index.empty config).Sound :=
  ⟨Trie.Sound.empty _ _, ResultTable.AliasForest.empty⟩

/-- A row was appended whose entry passes the checks of the table. -/
theorem withTable {table : ResultTable} {entry : Entry} (hindex : index.Sound)
    (hrows : table.rows = (index.table.append { entry }).rows)
    (hkind : entry.kind = .redirect ↔ entry.target.isSome = true)
    (htarget : ∀ target, entry.target = some target → target < index.table.size) :
    { index with table }.Sound := by
  refine ⟨hindex.trie.mono ?_, (hindex.forest.append hkind htarget).of_rows_eq hrows⟩
  rw [ResultTable.size_of_rows hrows]
  exact Nat.le_succ _

theorem mergeable_append (entry : Entry) {kept : Id} (hkept : kept < index.table.size)
    (hkind : (index.table.get kept).kind ≠ .redirect) :
    (index.table.append { entry }).Mergeable kept index.table.size where
  kept_lt := by
    rw [ResultTable.size_append]
    exact Nat.lt_succ_of_lt hkept
  gone_lt := by
    rw [ResultTable.size_append]
    exact Nat.lt_succ_self _
  ne := Nat.ne_of_lt hkept
  kind_ne := by rwa [ResultTable.get_of_lt rfl hkept]

theorem pushEntry {entry : Entry} {id : Id} (hindex : index.Sound)
    (hpush : index.pushEntry entry = .ok (id, next)) : next.Sound := by
  obtain ⟨_, -, hpush⟩ := except_bind_eq_ok.mp hpush
  obtain ⟨⟨new, table⟩, hrow, hresult⟩ := except_bind_eq_ok.mp hpush
  obtain ⟨hkind, htarget, rfl, rfl⟩ := ResultTable.push_eq_ok (mapError_eq_ok.mp hrow)
  cases hresult
  exact hindex.withTable rfl hkind htarget

end Sound

variable [Search]

/-- The index after `gone` was merged into `kept`. -/
def merged (index : Index) (kept gone : Id) : Index :=
  { index with
    table := index.table.merge kept gone
    trie := index.trie.replace (index.table.merge kept gone) gone kept }

theorem mergeDuplicate_eq_ok {index next : Index} {kept gone : Id}
    (hmerge : index.mergeDuplicate kept gone = .ok next) :
    index.table.Mergeable kept gone ∧ next = index.merged kept gone := by
  obtain ⟨table, htable, hresult⟩ := except_bind_eq_ok.mp hmerge
  obtain ⟨hmay, rfl⟩ := ResultTable.mergeable_of_mergeInto htable
  exact ⟨hmay, (Except.ok.inj hresult).symm⟩

theorem eq_of_insert {index next : Index} {text : String} {id : Id} {exact : Bool}
    (hinsert : index.insert text id exact = .ok next) :
    id < index.table.size ∧ next = { index with
      trie := index.trie.insert index.table
        { text := Text.utf8 (index.normalize text), id := index.table.canonicalId id, exact } } := by
  unfold Index.insert at hinsert
  dsimp only at hinsert
  split at hinsert
  · cases hinsert
  · next hid =>
    obtain ⟨_, -, hresult⟩ := except_bind_eq_ok.mp hinsert
    exact ⟨Nat.not_le.mp hid, (Except.ok.inj hresult).symm⟩

theorem insert_eq_ok {index next : Index} {text : String} {id : Id} {exact : Bool}
    (hinsert : index.insert text id exact = .ok next) :
    ∃ term : Term, term.id = index.table.canonicalId id ∧ id < index.table.size ∧
      next = { index with trie := index.trie.insert index.table term } := by
  obtain ⟨hid, hnext⟩ := eq_of_insert hinsert
  exact ⟨_, rfl, hid, hnext⟩

/-- The indexes that operations lead to. -/
inductive Reachable (config : Config) : Index → Prop
  | empty : Reachable config (Index.empty config)
  | pushEntry {index next : Index} {entry : Entry} {id : Id} (hreach : Reachable config index)
      (hpush : index.pushEntry entry = .ok (id, next)) : Reachable config next
  | add {index next : Index} {entry : Entry} {id : Id} (hreach : Reachable config index)
      (hadd : index.add entry = .ok (id, next)) : Reachable config next
  | addAlias {index next : Index} {name : String} {target id : Id}
      (hreach : Reachable config index) (hadd : index.addAlias name target = .ok (id, next)) :
      Reachable config next
  | insert {index next : Index} {text : String} {id : Id} {exact : Bool}
      (hreach : Reachable config index) (hinsert : index.insert text id exact = .ok next) :
      Reachable config next
  | mergeDuplicate {index next : Index} {kept gone : Id} (hreach : Reachable config index)
      (hmerge : index.mergeDuplicate kept gone = .ok next) : Reachable config next
  | mergeTrie {index : Index} {other : Trie} (hreach : Reachable config index)
      (hother : Trie.BuiltOver index.table.size other) :
      Reachable config (index.mergeTrie other)

namespace Sound

variable {index next : Index}

theorem merged {kept gone : Id} (hindex : index.Sound) (hmay : index.table.Mergeable kept gone) :
    (index.merged kept gone).Sound := by
  refine ⟨?_, hindex.forest.merge hmay⟩
  show (index.trie.replace _ gone kept).Sound (index.table.merge kept gone).size
  rw [ResultTable.size_merge]
  exact hindex.trie.replace hmay.kept_lt

/-- A registration keeps the index sound, and its texts are of results of the new table. -/
theorem register {entry : Entry} {id : Id} {terms : List Term} (hindex : index.Sound)
    (hregister : index.register entry = .ok (id, terms, next)) :
    next.Sound ∧ ∀ term ∈ terms, term.id < next.table.size := by
  obtain ⟨hkind, htarget⟩ := register_pushes hregister
  have houtcome := register_outcome hregister
  cases houtcome with
  | fresh =>
      have hrows := tableWith_rows index entry
      refine ⟨hindex.withTable hrows hkind htarget, ?_⟩
      rintro ⟨text, id, exact⟩ hterm
      show id < (index.tableWith entry).size
      rw [ResultTable.size_of_rows hrows]
      rcases mem_termsOf.mp hterm with ⟨-, rfl, -⟩ | ⟨-, rfl, -⟩
      · exact Nat.lt_succ_self _
      · exact Nat.lt_succ_self _
  | duplicate _ hkept hkeptKind =>
      have hmay := mergeable_append entry hkept hkeptKind
      refine ⟨(hindex.withTable rfl hkind htarget).merged hmay, ?_⟩
      rintro ⟨text, found, exact⟩ hterm
      obtain ⟨-, rfl, -⟩ := mem_keywordTerms.mp hterm
      show found < (index.tableMerged entry found).size
      rw [tableMerged, ResultTable.size_merge]
      exact hmay.kept_lt

theorem add {entry : Entry} {id : Id} (hindex : index.Sound)
    (hadd : index.add entry = .ok (id, next)) : next.Sound := by
  obtain ⟨⟨new, terms, mid⟩, hregister, hresult⟩ := except_bind_eq_ok.mp hadd
  obtain ⟨hmid, hterms⟩ := hindex.register hregister
  cases hresult
  exact ⟨hmid.trie.insertAll hterms, hmid.forest⟩

theorem insert {text : String} {id : Id} {exact : Bool} (hindex : index.Sound)
    (hinsert : index.insert text id exact = .ok next) : next.Sound := by
  obtain ⟨term, hterm, hid, rfl⟩ := insert_eq_ok hinsert
  have hcanonical := hindex.forest.canonicalId_lt hid
  rw [← hterm] at hcanonical
  exact ⟨hindex.trie.insert hcanonical, hindex.forest⟩

theorem mergeTrie {other : Trie} (hindex : index.Sound)
    (hother : Trie.BuiltOver index.table.size other) : (index.mergeTrie other).Sound :=
  ⟨hindex.trie.merge hother.sound, hindex.forest⟩

end Sound

/-- Every index that operations lead to is sound. -/
theorem Reachable.sound {config : Config} {index : Index} (hreach : Reachable config index) :
    index.Sound := by
  induction hreach with
  | empty => exact Sound.empty config
  | pushEntry _ hpush ih => exact ih.pushEntry hpush
  | add _ hadd ih => exact ih.add hadd
  | addAlias _ hadd ih => exact ih.add hadd
  | insert _ hinsert ih => exact ih.insert hinsert
  | mergeDuplicate _ hmerge ih =>
      obtain ⟨hmay, rfl⟩ := mergeDuplicate_eq_ok hmerge
      exact ih.merged hmay
  | mergeTrie _ hother ih => exact ih.mergeTrie hother

end Index

end PrefixSearch
