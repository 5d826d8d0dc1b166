import PrefixSearch.Proofs.DistinctResults
import PrefixSearch.Proofs.Histories
import PrefixSearch.Proofs.RegisteredTable

/-!
# Entries that are the same result

The key of an entry is its normalized name with its URL.  As long as every entry is added and none is
only pushed, the registered keys are exactly those of the entries that are no aliases, and a key leads
to the entry that has it.  So an addition finds the entry that the new one is the same as, and may
merge the new one into it.

A merge takes the URL from the duplicate, but the key that it was added with is kept, and leads to
what it was merged into.  This goes on as long as no merge names an entry that was merged before: such
a merge turns the entry to another one and leaves its key behind.
-/

namespace PrefixSearch

/-! ## Tables and their keys -/

namespace ResultTable

variable {t u : ResultTable} {normalize : String → String} {row : Row} {name url : String}
  {id kept gone : Id}

/-- Every entry that is no alias is the result of its key, and no key leads to an alias. -/
structure Keyed (t : ResultTable) (normalize : String → String) : Prop where
  find?_eq : ∀ (id : Id) (row : Row), t.rows[id]? = some row → row.entry.kind ≠ .redirect →
    t.find? (normalize row.entry.name) row.entry.url = some id
  found : ∀ name url id, t.find? name url = some id →
    id < t.size ∧ (t.get id).kind ≠ .redirect

/-- The key leads to the ID, or to the entry that it was merged into. -/
structure Tracks (t : ResultTable) (name url : String) (id : Id) : Prop where
  lt_size : id < t.size
  find?_eq : t.find? name url = some (t.canonicalId id)
  settled : t.isMerged id = true ∨ t.IsEnd id

namespace Keyed

theorem empty (normalize : String → String) : ({} : ResultTable).Keyed normalize where
  find?_eq id row hrow := by simp at hrow
  found name url id hfound := by simp [find?] at hfound

/-- Two entries that are no aliases have different keys. -/
theorem eq_of_key {a b : Id} {other : Row} (ht : t.Keyed normalize) (hrow : t.rows[a]? = some row)
    (hother : t.rows[b]? = some other) (hkind : row.entry.kind ≠ .redirect)
    (hotherKind : other.entry.kind ≠ .redirect)
    (hname : normalize row.entry.name = normalize other.entry.name)
    (hurl : row.entry.url = other.entry.url) : a = b := by
  have hfirst := ht.find?_eq a row hrow hkind
  have hsecond := ht.find?_eq b other hother hotherKind
  rw [hname, hurl, hsecond] at hfirst
  exact (Option.some.inj hfirst).symm

/-- An alias was appended. -/
theorem withAlias (ht : t.Keyed normalize) (hrows : u.rows = (t.append row).rows)
    (hkind : row.entry.kind = .redirect) (hfind : ∀ name url, u.find? name url = t.find? name url) :
    u.Keyed normalize where
  find?_eq := by
    refine forall_rows hrows (fun id row hrow hkind => ?_) (fun hne => absurd hkind hne)
    rw [hfind]
    exact ht.find?_eq id row hrow hkind
  found name url id hfound := by
    rw [hfind] at hfound
    obtain ⟨hid, hkept⟩ := ht.found name url id hfound
    rw [size_of_rows hrows, get_of_lt hrows hid]
    exact ⟨Nat.lt_succ_of_lt hid, hkept⟩

/-- An entry was appended and registered whose key was free. -/
theorem fresh {entry : Entry} (ht : t.Keyed normalize) (hkind : entry.kind ≠ .redirect)
    (hfree : t.find? (normalize entry.name) entry.url = none) :
    ((t.append { entry }).register (normalize entry.name) t.size).Keyed normalize := by
  have hget : (t.append { entry }).get t.size = entry := get_last rfl
  have hfind : ∀ name url, ((t.append { entry }).register (normalize entry.name) t.size).find?
      name url = if (normalize entry.name, entry.url) = (name, url) then some t.size
        else t.find? name url := by
    intro name url
    rw [find?_register, hget]
    have hnone : (t.append { entry }).find? (normalize entry.name) entry.url = none := hfree
    simp only [hnone, and_true]
    rfl
  have hrows : ((t.append { entry }).register (normalize entry.name) t.size).rows =
      (t.append { entry }).rows := rfl
  constructor
  · refine forall_rows hrows (fun id row hrow hrowKind => ?_) (fun _ => ?_)
    · have hold := ht.find?_eq id row hrow hrowKind
      rw [hfind, if_neg]
      · exact hold
      · intro hkey
        obtain ⟨hname, hurl⟩ := Prod.mk.inj hkey
        rw [← hname, ← hurl, hfree] at hold
        cases hold
    · rw [hfind, if_pos rfl]
  · intro name url id hfound
    rw [hfind] at hfound
    rw [size_of_rows hrows]
    split at hfound
    · obtain rfl := Option.some.inj hfound
      rw [get_last hrows]
      exact ⟨Nat.lt_succ_self _, hkind⟩
    · obtain ⟨hid, hkept⟩ := ht.found name url id hfound
      rw [get_of_lt hrows hid]
      exact ⟨Nat.lt_succ_of_lt hid, hkept⟩

theorem merge (ht : t.Keyed normalize) (hmay : t.Mergeable kept gone) :
    (t.merge kept gone).Keyed normalize := by
  constructor
  · intro id row hrow hkind
    obtain ⟨old, hold, rfl⟩ := exists_of_rows_merge hrow
    rw [Row.kind_redirect] at hkind
    rw [Row.name_redirect, Row.url_redirect, find?_merge]
    -- the duplicate is an alias now, and the keys of the other entries stay
    split at hkind
    · exact absurd rfl hkind
    · next hid =>
      rw [if_neg hid, ht.find?_eq id old hold hkind, Option.map_some, if_neg hid]
  · intro name url id hfound
    rw [find?_merge] at hfound
    obtain ⟨old, hold, rfl⟩ := Option.map_eq_some_iff.mp hfound
    obtain ⟨hid, hkind⟩ := ht.found name url old hold
    rw [size_merge]
    split
    · rw [kind_get_merge hmay.ne]
      exact ⟨hmay.kept_lt, hmay.kind_ne⟩
    · next hne =>
      rw [kind_get_merge hne]
      exact ⟨hid, hkind⟩

end Keyed

namespace Tracks

/-- A row was appended that changes no key. -/
theorem append (ht : t.Tracks name url id) (hrows : u.rows = (t.append row).rows)
    (hfind : ∀ found, t.find? name url = some found → u.find? name url = some found) :
    u.Tracks name url id where
  lt_size := by
    rw [size_of_rows hrows]
    exact Nat.lt_succ_of_lt ht.lt_size
  find?_eq := by
    rw [canonicalId_of_lt hrows ht.lt_size]
    exact hfind _ ht.find?_eq
  settled := by
    have hmerged : u.isMerged id = t.isMerged id := by
      rw [isMerged, isMerged, hrows, rows_append_of_lt row ht.lt_size]
    have hend : u.IsEnd id ↔ t.IsEnd id := by
      rw [IsEnd, IsEnd, next?_congr (get_of_lt hrows ht.lt_size)]
    rw [hmerged, hend]
    exact ht.settled

/-- Another entry, or the tracked one for the first time, was merged. -/
theorem merge (ht : t.Tracks name url id) (hmay : t.Mergeable kept gone)
    (hunmerged : t.isMerged gone = false) : (t.merge kept gone).Tracks name url id where
  lt_size := by
    rw [size_merge]
    exact ht.lt_size
  find?_eq := by
    rw [find?_merge, ht.find?_eq, canonicalId_merge hmay hunmerged, Option.map_some]
  settled := by
    rw [isMerged_merge hmay.gone_lt, isEnd_merge hmay.gone_lt]
    by_cases hid : id = gone
    · exact Or.inl (Or.inl hid)
    · exact ht.settled.imp Or.inr (fun hend => ⟨hid, hend⟩)

/-- A tracked key leads to where the chain of aliases ends. -/
theorem find?_resolve (ht : t.Tracks name url id) (hforest : t.AliasForest) :
    t.find? name url = some (t.resolve id) := by
  rw [ht.find?_eq]
  cases hmerged : t.isMerged id with
  | true => rw [hforest.resolve_of_isMerged hmerged]
  | false =>
      have hend : t.IsEnd id := by
        rcases ht.settled with hyes | hend
        · rw [hyes] at hmerged
          cases hmerged
        · exact hend
      rw [canonicalId_of_isMerged_false hmerged,
        hforest.resolve_of_chain ht.lt_size (.here id) hend]

end Tracks

end ResultTable

/-! ## Adding an entry to a keyed index -/

namespace Index

variable {config : Config} {index next last : Index} {entry : Entry} {op : Operation} {id kept : Id}

/-- The index is sound, and its keys lead to the entries that have them. -/
structure Keyed (index : Index) : Prop where
  sound : index.Sound
  table : index.table.Keyed index.normalize

theorem admissible_of_register [Search] {terms : List Term}
    (hregister : index.register entry = .ok (id, terms, next)) :
    entry.Admissible index.table.size := by
  obtain ⟨hkind, htarget⟩ := register_pushes hregister
  unfold register at hregister
  obtain ⟨_, hsupported, -⟩ := except_bind_eq_ok.mp hregister
  exact ⟨mapError_eq_ok.mp hsupported, hkind, htarget⟩

theorem duplicateOf?_eq_some : index.duplicateOf? entry = some kept ↔
    entry.isAlias = false ∧ index.table.find? (index.normalize entry.name) entry.url = some kept := by
  unfold duplicateOf?
  cases entry.isAlias with
  | true => simp
  | false => simp

/-- All that adding an entry to a keyed index can do. -/
inductive AddOutcome (index : Index) (entry : Entry) : Id → Index → Prop
  | fresh (trie : Trie) (hfresh : index.duplicateOf? entry = none) :
      AddOutcome index entry index.table.size
        { index with table := index.tableWith entry, trie }
  | duplicate (kept : Id) (trie : Trie) (hdup : index.duplicateOf? entry = some kept)
      (hkept : kept < index.table.size) (hkind : (index.table.get kept).kind ≠ .redirect) :
      AddOutcome index entry kept { index with table := index.tableMerged entry kept, trie }

namespace Keyed

/-- A duplicate is one more row, which changes no other one, and no key leads to it. -/
theorem rows_tableMerged (hindex : index.Keyed) (hkept : kept < index.table.size) :
    (index.tableMerged entry kept).rows =
      (index.table.append (Row.mergeInto kept { entry })).rows :=
  ResultTable.rows_merge_last (Nat.ne_of_lt hkept) entry hindex.sound.forest.not_to_size

theorem find?_tableMerged (hindex : index.Keyed) (name url : String) :
    (index.tableMerged entry kept).find? name url = index.table.find? name url := by
  have happend : (index.table.append { entry }).find? name url = index.table.find? name url := rfl
  rw [tableMerged, ResultTable.find?_merge, happend]
  cases hfound : index.table.find? name url with
  | none => rfl
  | some id =>
      obtain ⟨hid, -⟩ := hindex.table.found name url id hfound
      rw [Option.map_some, if_neg (Nat.ne_of_lt hid)]

/-- A registered key stays registered for the same entry. -/
theorem find?_tableWith {name url : String}
    (hfound : index.table.find? name url = some id) :
    (index.tableWith entry).find? name url = some id := by
  have happend : ∀ name url, (index.table.append { entry }).find? name url =
      index.table.find? name url := fun _ _ => rfl
  unfold tableWith
  split
  · exact hfound
  · rw [ResultTable.find?_register, if_neg, happend]
    · exact hfound
    · rintro ⟨hkey, hnone⟩
      obtain ⟨hname, hurl⟩ := Prod.mk.inj hkey
      rw [happend, hurl, hname, hfound] at hnone
      cases hnone

theorem empty (config : Config) : (Index.empty config).Keyed :=
  ⟨Sound.empty config, ResultTable.Keyed.empty _⟩

variable [Search]

/-- An addition succeeds if the entry passes the checks: the entry that it is the same as is no
alias, so it can be merged. -/
theorem exists_add (hindex : index.Keyed) (hentry : entry.Admissible index.table.size) :
    ∃ id next, index.add entry = .ok (id, next) ∧ AddOutcome index entry id next := by
  cases hdup : index.duplicateOf? entry with
  | none =>
      exact ⟨_, _, except_bind_eq_ok.mpr ⟨_, register_fresh hentry hdup, rfl⟩, .fresh _ hdup⟩
  | some kept =>
      obtain ⟨hkept, hkind⟩ := hindex.table.found _ _ kept (duplicateOf?_eq_some.mp hdup).2
      exact ⟨_, _, except_bind_eq_ok.mpr ⟨_, register_duplicate hentry hdup hkept hkind, rfl⟩,
        .duplicate kept _ hdup hkept hkind⟩

theorem add_iff (hindex : index.Keyed) :
    (∃ id next, index.add entry = .ok (id, next)) ↔ entry.Admissible index.table.size := by
  constructor
  · rintro ⟨id, next, hadd⟩
    obtain ⟨⟨new, terms, mid⟩, hregister, -⟩ := except_bind_eq_ok.mp hadd
    exact admissible_of_register hregister
  · intro hentry
    obtain ⟨id, next, hadd, -⟩ := hindex.exists_add hentry
    exact ⟨id, next, hadd⟩

theorem add_outcome (hindex : index.Keyed) (hadd : index.add entry = .ok (id, next)) :
    entry.Admissible index.table.size ∧ AddOutcome index entry id next := by
  have hentry : entry.Admissible index.table.size := hindex.add_iff.mp ⟨id, next, hadd⟩
  obtain ⟨found, last, hfound, houtcome⟩ := hindex.exists_add hentry
  rw [hadd] at hfound
  cases hfound
  exact ⟨hentry, houtcome⟩

theorem add (hindex : index.Keyed) (hadd : index.add entry = .ok (id, next)) : next.Keyed := by
  refine ⟨hindex.sound.add hadd, ?_⟩
  obtain ⟨hentry, houtcome⟩ := hindex.add_outcome hadd
  cases houtcome with
  | fresh trie hfresh =>
      show (index.tableWith entry).Keyed index.normalize
      unfold tableWith
      split
      · next halias => exact hindex.table.withAlias rfl (hentry.kind_iff.mpr halias) fun _ _ => rfl
      · next hplain =>
        refine hindex.table.fresh (fun hkind => hplain (hentry.kind_iff.mp hkind)) ?_
        rwa [duplicateOf?, if_neg hplain] at hfresh
  | duplicate _ trie hdup hkept hkind =>
      exact hindex.table.withAlias (hindex.rows_tableMerged hkept) rfl
        fun name url => hindex.find?_tableMerged name url

theorem merged (hindex : index.Keyed) {gone : Id} (hmay : index.table.Mergeable kept gone) :
    (index.merged kept gone).Keyed :=
  ⟨hindex.sound.merged hmay, hindex.table.merge hmay⟩

end Keyed

/-! ## Histories without pushed entries -/

/-- The operation adds no entry without its texts. -/
def NoPush (_ : Index) (op : Operation) : Prop :=
  ∀ entry, op ≠ .pushEntry entry

/-- The operation adds no entry without its texts, and no merge is of an entry that was merged
before. -/
def Careful (index : Index) : Operation → Prop
  | .pushEntry _ => False
  | .mergeDuplicate _ gone => index.table.isMerged gone = false
  | .add _ => True
  | .addAlias _ _ => True
  | .insert _ _ _ => True

theorem Careful.noPush (hmay : Careful index op) : NoPush index op := by
  rintro entry rfl
  exact hmay

section

variable [Search]

/-- All that an operation can do to a keyed index if it pushes no entry. -/
inductive KeyedOutcome (index : Index) : Operation → Index → Prop
  | added {op : Operation} {entry : Entry} {id : Id} {next : Index}
      (hadd : index.add entry = .ok (id, next)) : KeyedOutcome index op next
  | inserted {op : Operation} {trie : Trie} (hsound : { index with trie }.Sound) :
      KeyedOutcome index op { index with trie }
  | merged {kept gone : Id} (hmay : index.table.Mergeable kept gone) :
      KeyedOutcome index (.mergeDuplicate kept gone) (index.merged kept gone)

namespace Keyed

theorem apply_outcome (hindex : index.Keyed) (hpush : NoPush index op)
    (happly : index.apply op = .ok next) : KeyedOutcome index op next := by
  cases op with
  | pushEntry entry => exact absurd rfl (hpush entry)
  | add entry =>
      obtain ⟨id, hadd⟩ := second_eq_ok.mp happly
      exact .added hadd
  | addAlias name target =>
      obtain ⟨id, hadd⟩ := second_eq_ok.mp happly
      exact .added hadd
  | insert text id exact =>
      have hsound : next.Sound := hindex.sound.insert happly
      obtain ⟨term, -, -, rfl⟩ := insert_eq_ok happly
      exact .inserted hsound
  | mergeDuplicate kept gone =>
      obtain ⟨hmay, rfl⟩ := mergeDuplicate_eq_ok (mapError_eq_ok.mp happly)
      exact .merged hmay

theorem apply (hindex : index.Keyed) (hpush : NoPush index op)
    (happly : index.apply op = .ok next) : next.Keyed := by
  cases hindex.apply_outcome hpush happly with
  | added hadd => exact hindex.add hadd
  | inserted hsound => exact ⟨hsound, hindex.table⟩
  | merged hmay => exact hindex.merged hmay

end Keyed

/-- The key that an entry was added with leads to the ID, or to the entry it was merged into. -/
def Tracks (index : Index) (old : Entry) (id : Id) : Prop :=
  index.table.Tracks (index.normalize old.name) old.url id

namespace Tracks

variable {old : Entry}

theorem of_add (hindex : index.Keyed) (hadd : index.add old = .ok (id, next))
    (hplain : old.isAlias = false) : next.Tracks old index.table.size := by
  have hnext : next.Keyed := hindex.add hadd
  obtain ⟨hentry, houtcome⟩ := hindex.add_outcome hadd
  cases houtcome with
  | fresh trie hfresh =>
      have hrows := tableWith_rows index old
      have hkind : old.kind ≠ .redirect := by
        intro hkind
        have halias : old.isAlias = true := hentry.kind_iff.mp hkind
        rw [hplain] at halias
        cases halias
      refine ⟨?_, ?_, Or.inr ?_⟩
      · show index.table.size < (index.tableWith old).size
        rw [ResultTable.size_of_rows hrows]
        exact Nat.lt_succ_self _
      · show (index.tableWith old).find? _ _ = some ((index.tableWith old).canonicalId _)
        rw [ResultTable.canonicalId_last hrows]
        refine hnext.table.find?_eq index.table.size { entry := old } ?_ hkind
        show (index.tableWith old).rows[index.table.size]? = _
        rw [hrows, ResultTable.rows_append_size]
      · refine ResultTable.isEnd_of_ne_redirect ?_
        show ((index.tableWith old).get index.table.size).kind ≠ .redirect
        rwa [ResultTable.get_last hrows]
  | duplicate _ trie hdup hkept hkind =>
      have hrows : (index.tableMerged old id).rows =
          (index.table.append (Row.mergeInto id { entry := old })).rows :=
        hindex.rows_tableMerged hkept
      refine ⟨?_, ?_, Or.inl ?_⟩
      · show index.table.size < (index.tableMerged old id).size
        rw [ResultTable.size_of_rows hrows]
        exact Nat.lt_succ_self _
      · show (index.tableMerged old id).find? _ _ = some ((index.tableMerged old id).canonicalId _)
        rw [ResultTable.canonicalId_last hrows, hindex.find?_tableMerged]
        exact (duplicateOf?_eq_some.mp hdup).2
      · show (index.tableMerged old id).isMerged index.table.size = true
        rw [ResultTable.isMerged, hrows, ResultTable.rows_append_size]
        rfl

theorem add (htracks : index.Tracks old kept) (hindex : index.Keyed)
    (hadd : index.add entry = .ok (id, next)) : next.Tracks old kept := by
  obtain ⟨-, houtcome⟩ := hindex.add_outcome hadd
  cases houtcome with
  | fresh trie hfresh =>
      exact ResultTable.Tracks.append htracks (tableWith_rows index entry)
        fun _ hfound => Keyed.find?_tableWith hfound
  | duplicate _ trie hdup hkeptEntry hkind =>
      refine ResultTable.Tracks.append htracks (hindex.rows_tableMerged hkeptEntry) ?_
      intro found hfound
      rwa [hindex.find?_tableMerged]

theorem apply (htracks : index.Tracks old kept) (hindex : index.Keyed) (hmay : Careful index op)
    (happly : index.apply op = .ok next) : next.Tracks old kept := by
  cases hindex.apply_outcome hmay.noPush happly with
  | added hadd => exact htracks.add hindex hadd
  | inserted => exact htracks
  | merged hmergeable => exact ResultTable.Tracks.merge htracks hmergeable hmay

/-- An entry with a tracked key is a duplicate of the entry that the chain of aliases ends at. -/
theorem add_again (htracks : index.Tracks old kept) (hindex : index.Keyed)
    (hentry : entry.Admissible index.table.size) (hplain : entry.isAlias = false)
    (hname : index.normalize entry.name = index.normalize old.name) (hurl : entry.url = old.url) :
    ∃ next, index.add entry = .ok (index.table.resolve kept, next) ∧
      next.table.rows =
        index.table.rows.push (Row.mergeInto (index.table.resolve kept) { entry }) := by
  have hdup : index.duplicateOf? entry = some (index.table.resolve kept) := by
    rw [duplicateOf?_eq_some, hname, hurl]
    exact ⟨hplain, ResultTable.Tracks.find?_resolve htracks hindex.sound.forest⟩
  obtain ⟨id, next, hadd, houtcome⟩ := hindex.exists_add hentry
  cases houtcome with
  | fresh trie hfresh =>
      rw [hfresh] at hdup
      cases hdup
  | duplicate _ trie hfound hkept hkind =>
      rw [hfound] at hdup
      obtain rfl := Option.some.inj hdup
      exact ⟨_, hadd, hindex.rows_tableMerged hkept⟩

end Tracks

/-- In every history without pushed entries the entries that are no aliases have different keys,
keys lead to entries that are no aliases, and every entry that passes the checks can be added.
Unless a merge names an entry that was merged before, an entry with the key of an earlier one is kept
as an alias of what that one leads to. -/
theorem Run.collisions (hrun : Run NoPush (empty config) index) :
    (∀ (a b : Id) (row other : Row), index.table.rows[a]? = some row →
        index.table.rows[b]? = some other → row.entry.kind ≠ .redirect →
        other.entry.kind ≠ .redirect →
        index.normalize row.entry.name = index.normalize other.entry.name →
        row.entry.url = other.entry.url → a = b) ∧
      (∀ name url id, index.table.find? name url = some id →
        id < index.table.size ∧ (index.table.get id).kind ≠ .redirect) ∧
      (∀ entry : Entry, (∃ id next, index.add entry = .ok (id, next)) ↔
        entry.Admissible index.table.size) ∧
      ∀ (old : Entry) (id : Id) (next last : Index), old.isAlias = false →
        index.add old = .ok (id, next) → Run Careful next last →
        ∀ entry : Entry, entry.Admissible last.table.size → entry.isAlias = false →
          last.normalize entry.name = last.normalize old.name → entry.url = old.url →
          ∃ again, last.add entry = .ok (last.table.resolve index.table.size, again) ∧
            again.table.rows = last.table.rows.push
              (Row.mergeInto (last.table.resolve index.table.size) { entry }) := by
  have hindex : index.Keyed :=
    hrun.keeps (fun _ _ _ hmid hpush hstep => hmid.apply hpush hstep) (Keyed.empty config)
  refine ⟨?_, hindex.table.found, fun _ => hindex.add_iff, ?_⟩
  · intro a b row other hrow hother hkind hotherKind hname hurl
    exact hindex.table.eq_of_key hrow hother hkind hotherKind hname hurl
  · intro old id next last hplain hadd hafter entry hentry hentryPlain hname hurl
    obtain ⟨hlast, htracks⟩ : last.Keyed ∧ last.Tracks old index.table.size := by
      refine hafter.keeps (P := fun mid => mid.Keyed ∧ mid.Tracks old index.table.size) ?_ ?_
      · intro mid op next hmid hmay hstep
        exact ⟨hmid.1.apply hmay.noPush hstep, hmid.2.apply hmid.1 hmay hstep⟩
      · exact ⟨hindex.add hadd, .of_add hindex hadd hplain⟩
    exact htracks.add_again hlast hentry hentryPlain hname hurl

end

/-- A page that is merged into another one is found again by its key, in any letter case. -/
theorem Run.collisions_mergedPage :
    let page : Entry := { name := "Guide", url := "guide.html", kind := .page }
    let again : Entry := { name := "GUIDE", url := "guide.html", kind := .page }
    ∃ index next mid last final,
      (Index.empty {}).applyAll [.add { name := "Manual", url := "manual.html", kind := .page }] =
        .ok index ∧
      index.add page = .ok (1, next) ∧
      next.applyAll [.addAlias "g" 1, .insert "handbook" 1 false] = .ok mid ∧
      mid.apply (.mergeDuplicate 0 1) = .ok last ∧
      last.add again = .ok (0, final) ∧
      final.table.rows = last.table.rows.push (Row.mergeInto 0 { entry := again }) := by
  intro page again
  have hfacts : (((Index.empty {}).applyAll
      [.add { name := "Manual", url := "manual.html", kind := .page }]).toOption.bind fun index =>
        (index.add page).toOption.bind fun added =>
          (added.2.applyAll [.addAlias "g" 1, .insert "handbook" 1 false]).toOption.bind fun mid =>
            (mid.apply (.mergeDuplicate 0 1)).toOption.map fun last =>
              (index.table.size, added.1, mid.table.isMerged 1, last.table.resolve 1,
                decide (last.normalize again.name = last.normalize page.name))) =
      some (1, 1, false, 0, true) := by
    decide +kernel
  obtain ⟨index, hindex, hfacts⟩ := Option.bind_eq_some_iff.mp hfacts
  obtain ⟨⟨id, next⟩, hadd, hfacts⟩ := Option.bind_eq_some_iff.mp hfacts
  obtain ⟨mid, hmid, hfacts⟩ := Option.bind_eq_some_iff.mp hfacts
  obtain ⟨last, hlast, hfacts⟩ := Option.map_eq_some_iff.mp hfacts
  rw [toOption_eq_some] at hindex hadd hmid hlast
  simp only [Prod.mk.injEq, decide_eq_true_eq] at hfacts
  obtain ⟨hsize, rfl, hunmerged, hresolve, hname⟩ := hfacts
  have hrun : Run NoPush (Index.empty {}) index := by
    refine .of_applyAll hindex fun _ op hop entry => ?_
    rw [List.mem_singleton.mp hop]
    exact nofun
  have hadditions : Run Careful next mid := by
    refine .of_applyAll hmid fun _ op hop => ?_
    rcases List.mem_pair.mp hop with rfl | rfl
    · trivial
    · trivial
  have hmay : Careful mid (.mergeDuplicate 0 1) := hunmerged
  have hafter : Run Careful next last := hadditions.next hmay hlast
  have hentry : again.Admissible last.table.size := ⟨by decide +kernel, by decide, nofun⟩
  obtain ⟨-, -, -, hcollides⟩ := hrun.collisions
  obtain ⟨final, hagain, hrows⟩ := hcollides page 1 next last rfl hadd hafter again hentry rfl
    hname rfl
  rw [hsize, hresolve] at hagain hrows
  exact ⟨index, next, mid, last, final, hindex, hadd, hmid, hlast, hagain, hrows⟩

end Index

end PrefixSearch
