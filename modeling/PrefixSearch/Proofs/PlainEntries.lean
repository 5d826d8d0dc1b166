import PrefixSearch.Proofs.Collisions
import PrefixSearch.Proofs.QueryResults
import PrefixSearch.Proofs.RegisteredTable

/-!
# Indexes of entries that are no aliases

Results hide each other only where they look the same, and among entries that are no aliases no two
kept results do: an entry with the name and the URL of an earlier one was merged into it.  So an
exact set holds every result that owns the text, and the completions do if there is room for all
entries.

The ID that an addition gives stays the ID of a kept entry with the same normalized name, whatever
is added later.  Which texts find it exactly can therefore be read off the entry that was added.
-/

namespace PrefixSearch

/-! ## Tables of plain entries -/

namespace ResultTable.Registers

variable {t : ResultTable} {normalize : String → String} {entries : List Entry} {id : Id}

/-- What was kept of entries that are no aliases is no alias. -/
theorem kind_of_isKept (ht : t.Registers normalize entries)
    (hplain : ∀ entry ∈ entries, entry.isAlias = false) (hid : t.IsKept id) :
    (t.get id).kind ≠ .redirect := by
  have hlt : id < entries.length := by
    rw [← ht.size_eq]
    exact hid.1
  have hentry : entries[id]? = some entries[id] := List.getElem?_eq_getElem hlt
  have hrow := ht.row id _ hentry
  rw [rowOf] at hrow
  cases hdup : duplicateIn normalize (entries.take id) entries[id] with
  | some kept =>
      rw [hdup] at hrow
      have hnone := (isKept_of_rows hrow).mp hid
      cases hnone
  | none =>
      rw [hdup] at hrow
      rw [get_of_rows hrow, Ne, (ht.admissible id _ hentry).kind_iff]
      exact Bool.eq_false_iff.mp (hplain _ (List.getElem_mem hlt))

/-- No kept result is hidden by another one. -/
theorem lowest_iff {P : Id → Prop} (ht : t.Registers normalize entries)
    (hplain : ∀ entry ∈ entries, entry.isAlias = false) (hP : ∀ id, P id → t.IsKept id) (id : Id) :
    t.Lowest P id ↔ P id := by
  refine ⟨And.left, fun hid => ⟨hid, fun other hother hsame => ?_⟩⟩
  have heq : other = id := ht.grown.eq_of_sameTarget (hP other hother).1 (hP id hid).1
    (ht.kind_of_isKept hplain (hP other hother)) (ht.kind_of_isKept hplain (hP id hid)) hsame
  exact Nat.le_of_eq heq.symm

end ResultTable.Registers

namespace Index

variable {config : Config} {before after entries more : List Entry} {entry : Entry} {id : Id}
  {index mid next : Index} {terms : List Term}

/-! ## What additions register -/

/-- The entries were registered in the table of the index, as its configuration wants it. -/
structure Registered (index : Index) (config : Config) (entries : List Entry) : Prop where
  config_eq : index.config = config
  table : index.table.Registers (Text.normalize config.caseInsensitive) entries

namespace Registered

theorem empty (config : Config) : (empty config).Registered config [] :=
  ⟨rfl, ResultTable.Registers.empty _⟩

variable [Search]

/-- An addition registers its entry and gives the first ID of the entry's key. -/
theorem add (hindex : index.Registered config entries) (hadd : index.add entry = .ok (id, next)) :
    next.Registered config (entries ++ [entry]) ∧
      (entry.isAlias = false → firstOf (Text.normalize config.caseInsensitive) (entries ++ [entry])
        (Text.normalize config.caseInsensitive entry.name) entry.url = some id) := by
  obtain ⟨rfl, htable⟩ := hindex
  obtain ⟨⟨given, terms, mid⟩, hregister, hnext⟩ := except_bind_eq_ok.mp hadd
  obtain ⟨rfl, rfl⟩ := Prod.mk.inj (Except.ok.inj hnext)
  have hadmissible := admissible_of_register hregister
  have hentry : entry.Admissible entries.length := by rwa [htable.size_eq] at hadmissible
  cases hdup : duplicateIn index.normalize entries entry with
  | none =>
      rw [register_fresh hadmissible (by rwa [duplicateOf?_eq htable])] at hregister
      cases hregister
      refine ⟨⟨rfl, registers_tableWith htable hentry hdup⟩, fun hplain => ?_⟩
      rw [duplicateIn, if_neg (Bool.eq_false_iff.mp hplain)] at hdup
      rw [firstOf_concat, ← htable.size_eq, if_pos (Entry.hasKey_iff.mpr ⟨hplain, rfl, rfl⟩)]
      exact Option.or_eq_right_of_none hdup
  | some kept =>
      obtain ⟨hkept, hkind, hmerged⟩ := registers_tableMerged htable hentry hdup
      rw [register_duplicate hadmissible (by rwa [duplicateOf?_eq htable]) hkept hkind] at hregister
      cases hregister
      refine ⟨⟨rfl, hmerged⟩, fun hplain => ?_⟩
      rw [duplicateIn, if_neg (Bool.eq_false_iff.mp hplain)] at hdup
      rw [firstOf_concat]
      exact Option.or_eq_some_iff.mpr (Or.inl hdup)

/-- Additions register their entries, one after the other. -/
theorem addAll (hindex : index.Registered config entries) (hadd : index.addAll more = .ok next) :
    next.Registered config (entries ++ more) := by
  induction more generalizing index entries with
  | nil =>
      cases hadd
      rwa [List.append_nil]
  | cons entry more ih =>
      obtain ⟨mid, hstep, hrest⟩ := foldlM_cons_eq_ok.mp hadd
      obtain ⟨id, hentry⟩ := second_eq_ok.mp hstep
      have hlast := ih (hindex.add hentry).1 hrest
      rwa [List.append_assoc] at hlast

end Registered

variable [Search]

/-- A run of additions to an index without entries, none of an alias: after `before` and before
`after` comes `entry`, and it is given the ID. -/
structure PlainRun (config : Config) (before : List Entry) (entry : Entry) (after : List Entry)
    (id : Id) (index : Index) : Prop where
  plain : ∀ other ∈ before ++ entry :: after, other.isAlias = false
  run : ∃ mid next, (empty config).addAll before = .ok mid ∧ mid.add entry = .ok (id, next) ∧
    next.addAll after = .ok index

namespace PlainRun

theorem addAll_eq (hrun : PlainRun config before entry after id index) :
    (empty config).addAll (before ++ entry :: after) = .ok index := by
  obtain ⟨mid, next, hbefore, hadd, hafter⟩ := hrun.run
  rw [addAll, List.foldlM_append]
  exact except_bind_eq_ok.mpr ⟨mid, hbefore,
    foldlM_cons_eq_ok.mpr ⟨next, second_eq_ok.mpr ⟨id, hadd⟩, hafter⟩⟩

theorem registered (hrun : PlainRun config before entry after id index) :
    index.Registered config (before ++ entry :: after) :=
  (Registered.empty config).addAll hrun.addAll_eq

/-- The given ID is the first one of the entry's key. -/
theorem firstOf_eq (hrun : PlainRun config before entry after id index) :
    firstOf (Text.normalize config.caseInsensitive) (before ++ entry :: after)
      (Text.normalize config.caseInsensitive entry.name) entry.url = some id := by
  obtain ⟨mid, next, hbefore, hadd, -⟩ := hrun.run
  have hplain : entry.isAlias = false :=
    hrun.plain entry (List.mem_append_right _ List.mem_cons_self)
  have hfirst := (((Registered.empty config).addAll hbefore).add hadd).2 hplain
  have htake : (before ++ entry :: after).take (before.length + 1) = before ++ [entry] := by
    rw [List.take_append, List.take_of_length_le (Nat.le_succ _), Nat.add_sub_cancel_left,
      List.take_succ_cons, List.take_zero]
  rw [List.nil_append, ← htake] at hfirst
  exact firstOf_of_take hfirst

/-- The given ID is of an entry that was kept, with the same name but for case. -/
theorem kept (hrun : PlainRun config before entry after id index) :
    index.table.IsKept id ∧
      index.normalize (index.table.get id).name = index.normalize entry.name := by
  obtain ⟨rfl, htable⟩ := hrun.registered
  obtain ⟨first, -, hkey, hrow, -⟩ := htable.row_first hrun.firstOf_eq
  obtain ⟨-, hname, -⟩ := Entry.hasKey_iff.mp hkey
  refine ⟨(ResultTable.isKept_of_rows hrow).mpr rfl, ?_⟩
  rw [ResultTable.get_of_rows hrow]
  exact hname

/-- The texts that find the given ID exactly are those of the entry that was added. -/
theorem ownsExactly_iff (hrun : PlainRun config before entry after id index) (text : List UInt8) :
    index.OwnsExactly id text ↔ ∃ name ∈ index.exactTexts entry, Text.utf8 name = text := by
  obtain ⟨hkept, hname⟩ := hrun.kept
  have hsame : index.exactTexts (index.table.get id) = index.exactTexts entry := by
    rw [exactTexts, exactTexts, hname]
  rw [OwnsExactly, hsame]
  exact and_iff_right hkept

/-! ## What such an index finds -/

/-- Every kept result that owns a text is an exact result of it. -/
theorem mem_exact_iff (hrun : PlainRun config before entry after id index) (query : String)
    (found : Id) : found ∈ (index.lookup query).exact ↔
      index.OwnsExactly found (Text.utf8 (index.normalize query)) := by
  obtain ⟨terms, last, -, hterms, -, rfl⟩ := addAll_eq_ok hrun.addAll_eq
  have htable : last.table.Registers _ _ := hrun.registered.table
  have howns := hterms.mem_exactIds (Text.utf8 (last.normalize query))
  rw [lookup_withTree, (Ranked.lists_lowest_insertAll _ _).mem_iff,
    htable.lowest_iff hrun.plain fun other hother => ((howns other).mp hother).1]
  exact howns found

/-- With room for all entries, every result that owns a text beginning with a query is a completion
of it. -/
theorem mem_completions_iff (hrun : PlainRun config before entry after id index)
    (hroom : (before ++ entry :: after).length ≤ config.maxCompletions) (query : String)
    (found : Id) : found ∈ (index.lookup query).completions ↔
      index.OwnsFrom (Text.utf8 (index.normalize query)) found := by
  obtain ⟨terms, last, -, hterms, rfl, rfl⟩ := addAll_eq_ok hrun.addAll_eq
  have htable : last.table.Registers _ _ := hrun.registered.table
  have howns := hterms.mem_completionIds (Text.utf8 (last.normalize query))
  have hkept : ∀ other, other ∈ Term.completionIds terms (Text.utf8 (last.normalize query)) →
      last.table.IsKept other := by
    intro other hother
    obtain ⟨_, hother, -⟩ := (howns other).mp hother
    exact hother.isKept
  have hsize : last.table.size ≤ last.config.maxCompletions := by rwa [htable.size_eq]
  -- no set is ever full, so the bound changes nothing
  have hsettled : Ranked.Settled last.table last.config.maxCompletions
      (· ∈ Term.completionIds terms (Text.utf8 (last.normalize query))) :=
    Ranked.settled_of_size_le (fun other hother => (hkept other hother).1) hsize
  have hlength : (Ranked.insertAll last.table none
      (Term.completionIds terms (Text.utf8 (last.normalize query))) []).length ≤
        last.config.maxCompletions := by
    refine Nat.le_trans (IdSet.length_le ⟨?_, fun other hother => ?_⟩) hsize
    · exact (Ranked.ranked_apart_insertAll _ _ _).2.nodup
    · exact (hkept other ((Ranked.mem_of_mem_insertAll hother).resolve_right List.not_mem_nil)).1
  rw [lookup_withTree, Ranked.insertAll_some_eq_take hsettled, List.take_of_length_le hlength,
    (Ranked.lists_lowest_insertAll _ _).mem_iff, htable.lowest_iff hrun.plain hkept]
  exact howns found

/-- With room for all entries, a query lists every result that owns a text beginning with it. -/
theorem mem_ordered_iff (hrun : PlainRun config before entry after id index)
    (hroom : (before ++ entry :: after).length ≤ config.maxCompletions) (query : String)
    (found : Id) : found ∈ (index.lookup query).ordered ↔
      index.OwnsFrom (Text.utf8 (index.normalize query)) found := by
  have hnodup : (index.lookup query).completions.Nodup := by
    obtain ⟨terms, last, -, -, -, rfl⟩ := addAll_eq_ok hrun.addAll_eq
    exact (apart_of_lookup last terms query).2.nodup
  rw [Hits.mem_ordered hnodup, hrun.mem_exact_iff, hrun.mem_completions_iff hroom]
  refine or_iff_right_of_imp fun hexact => ?_
  exact ⟨_, Or.inl hexact, List.prefix_rfl⟩

end PlainRun

end Index

end PrefixSearch
