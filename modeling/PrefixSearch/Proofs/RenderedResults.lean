import PrefixSearch.Proofs.KeptRecords
import PrefixSearch.Proofs.MadeIndexes
import PrefixSearch.Proofs.RegisteredTable
import PrefixSearch.Proofs.StoredRecords

/-!
# From records to results

A list of records that is resolved is built into an index, in parts or not, and the results that are
read back from the file of the index are those of the records that were kept.  Three numberings meet
here: positions of records, IDs of entries, and the IDs that aliases and duplicates lead to.  The
first two are related by the number of kept records before a position, the last two by the table of
the registered entries.
-/

namespace PrefixSearch

/-! ## Building never fails, and what is built is sound -/

namespace Index

variable {entries : List Entry}

/-- Entries that may be registered one after the other are built into a sound index. -/
theorem build_of_admissible [Search] (config : Config) (inParts : Bool)
    (hentries : ∀ (id : Id) (entry : Entry), entries[id]? = some entry → entry.Admissible id) :
    ∃ index, build config inParts entries = .ok index ∧ index.Sound ∧
      index.table.Registers (Text.normalize config.caseInsensitive) entries := by
  obtain ⟨terms, last, hregister, htable⟩ := registerAll_of_admissible config hentries
  obtain ⟨trie, hbuild, hsound⟩ := build_of_registerAll hregister inParts
  exact ⟨_, hbuild, hsound, htable⟩

end Index

/-! ## The records behind an entry -/

namespace EntryRecord

/-- The record is no alias and has the normalized name and the URL of the other one. -/
def IsSame (normalize : String → String) (record other : EntryRecord) : Prop :=
  record.aliasOf = none ∧ normalize record.name = normalize other.name ∧ record.url = other.url

theorem hasKey_entry {normalize : String → String} {idOf : Nat → Id} {record other : EntryRecord} :
    (record.entry idOf).hasKey normalize (normalize other.name) other.url = true ↔
      record.IsSame normalize other := by
  rw [Entry.hasKey_iff, isAlias_entry, Option.isSome_eq_false_iff, Option.isNone_iff_eq_none,
    (record.entry_fields idOf).1, IsSame]
  refine and_congr_right fun hplain => and_congr_right fun _ => ?_
  rw [entry, hplain]
  rfl

end EntryRecord

/-- The first kept record that is no alias and has the normalized name and the URL of the given
one. -/
structure IsEarliest (normalize : String → String) (records : List EntryRecord)
    (record : EntryRecord) (first : Nat) (found : EntryRecord) : Prop where
  record_eq : records[first]? = some found
  kept : Kept records first
  same : found.IsSame normalize record
  earliest : ∀ p < first, ∀ other, records[p]? = some other → Kept records p →
    ¬ other.IsSame normalize record

theorem IsEarliest.unique {normalize : String → String} {records : List EntryRecord}
    {record found other : EntryRecord} {p q : Nat}
    (hfound : IsEarliest normalize records record p found)
    (hother : IsEarliest normalize records record q other) : found = other := by
  rcases Nat.lt_trichotomy p q with hlt | rfl | hgt
  · exact absurd hfound.same (hother.earliest p hlt found hfound.record_eq hfound.kept)
  · exact Option.some.inj (hfound.record_eq.symm.trans hother.record_eq)
  · exact absurd hother.same (hfound.earliest q hgt other hother.record_eq hother.kept)

section

variable {r : Resolution} {records : List EntryRecord} {normalize : String → String}
  {t : ResultTable} {p last : Nat} {record : EntryRecord} {first : Id}

/-- Every kept record has an end of its chain. -/
theorem Kept.endsAt (hkept : Kept records p) : ∃ last, EndsAt records p last := by
  induction p using Nat.strongRecOn with
  | _ p ih =>
      obtain ⟨record, hrecord⟩ : ∃ record, records[p]? = some record :=
        ⟨_, List.getElem?_eq_getElem hkept.lt_length⟩
      cases halias : record.aliasOf with
      | none => exact ⟨p, .plain hrecord halias⟩
      | some q =>
          obtain ⟨hlt, hqKept⟩ := hkept.kept_of_alias hrecord halias
          obtain ⟨last, hrest⟩ := ih q hlt hqKept
          exact ⟨last, .along hrecord halias hrest⟩

/-- The first entry of a key belongs to the first record that is the same. -/
theorem isEarliest_of_firstOf (hr : r.Reflects records)
    (hfirst : firstOf normalize r.entries.toList (normalize record.name) record.url = some first) :
    ∃ p found, keptBefore records p = first ∧ IsEarliest normalize records record p found := by
  obtain ⟨⟨entry, hentry, hkey⟩, hbefore⟩ := firstOf_eq_some_iff.mp hfirst
  obtain ⟨p, found, hfound, hkept, rfl, rfl⟩ := hr.exists_kept hentry
  refine ⟨p, found, rfl, hfound, hkept, EntryRecord.hasKey_entry.mp hkey, ?_⟩
  intro q hq other hother hotherKept hsame
  have hno := hbefore (keptBefore records q) (keptBefore_lt hotherKept hq)
    (other.entry (keptBefore records)) (hr.getElem?_entries hother hotherKept)
  rw [EntryRecord.hasKey_entry.mpr hsame] at hno
  cases hno

/-- From the entry of a kept record the aliases of the table lead to the first entry that is the
same as the end of the record's chain. -/
theorem leadsTo_of_endsAt (hr : r.Reflects records)
    (ht : t.Registers normalize r.entries.toList) (hends : EndsAt records p last)
    (hkept : Kept records p) :
    ∃ ending first, records[last]? = some ending ∧
      firstOf normalize r.entries.toList (normalize ending.name) ending.url = some first ∧
        t.LeadsTo (keptBefore records p) first := by
  induction hends with
  | @plain p record hrecord hplain =>
      have hentry := hr.getElem?_entries hrecord hkept
      obtain ⟨first, hfirst, hleads⟩ := ht.leadsTo_first hentry (by
        rw [record.isAlias_entry, hplain]
        rfl)
      have hname := (record.entry_fields (keptBefore records)).1
      have hurl : (record.entry (keptBefore records)).url = record.url := by
        rw [EntryRecord.entry, hplain]
        rfl
      rw [hname, hurl] at hfirst
      exact ⟨record, first, hrecord, hfirst, hleads⟩
  | @along p q last record hrecord halias _ ih =>
      obtain ⟨-, hqKept⟩ := hkept.kept_of_alias hrecord halias
      obtain ⟨ending, first, hending, hfirst, hleads⟩ := ih hqKept
      have hentry := hr.getElem?_entries hrecord hkept
      have hnext := ht.next?_alias hentry (by rw [record.target_entry, halias, Option.map_some])
      exact ⟨ending, first, hending, hfirst, (ResultTable.leadsTo_iff hnext).mpr (Or.inr hleads)⟩

/-- What the table says of the ID of a kept record. -/
theorem result_of_kept (hr : r.Reflects records) (ht : t.Registers normalize r.entries.toList)
    (hforest : t.AliasForest) (hrecord : records[p]? = some record) (hkept : Kept records p) :
    keptBefore records p < t.size ∧
      (t.result (keptBefore records p)).name = record.name ∧
      (t.result (keptBefore records p)).deprecated = record.deprecated ∧
      (t.result (keptBefore records p)).deleted = record.deleted ∧
      (t.result (keptBefore records p)).suffixLength = record.suffixLength ∧
      ∃ last ending first found, EndsAt records p last ∧ records[last]? = some ending ∧
        (t.result (keptBefore records p)).url = ending.url ∧
        IsEarliest normalize records ending first found ∧
        found.kind = some (t.result (keptBefore records p)).kind := by
  have hentry := hr.getElem?_entries hrecord hkept
  have hid : keptBefore records p < t.size := by
    rw [ht.size_eq]
    exact (List.getElem?_eq_some_iff.mp hentry).1
  obtain ⟨hname, hdeprecated, hdeleted, hsuffix, -⟩ := record.entry_fields (keptBefore records)
  obtain ⟨hgetName, hgetFlags, hgetSuffix⟩ := ht.get_fields hentry
  refine ⟨hid, hgetName.trans hname, ?_, ?_, hgetSuffix.trans hsuffix, ?_⟩
  · rw [← hdeprecated, ← hgetFlags]
    rfl
  · rw [← hdeleted, ← hgetFlags]
    rfl
  · obtain ⟨last, hends⟩ := hkept.endsAt
    obtain ⟨ending, first, hending, hfirst, steps, hchain⟩ := leadsTo_of_endsAt hr ht hends hkept
    have hresolve : t.resolve (keptBefore records p) = first :=
      hforest.resolve_of_chain hid hchain (ht.isEnd_first hfirst)
    obtain ⟨q, found, rfl, hearliest⟩ := isEarliest_of_firstOf hr hfirst
    -- the entry that the chain ends at is that of the first record, unchanged
    obtain ⟨entry, hfirstEntry, -, hrow, -⟩ := ht.row_first hfirst
    rw [hr.getElem?_entries hearliest.record_eq hearliest.kept] at hfirstEntry
    obtain rfl := Option.some.inj hfirstEntry
    obtain ⟨hplain, -, hurl⟩ := hearliest.same
    obtain ⟨kind, hkind, -⟩ := hr.kind q found hearliest.record_eq hearliest.kept hplain
    have hget : t.get (t.resolve (keptBefore records p)) =
        found.complete { name := found.name, url := found.url, kind } := by
      rw [hresolve, ResultTable.get_of_rows hrow, found.entry_of_plain hplain hkind]
    refine ⟨last, ending, q, found, hends, hending, ?_, hearliest, ?_⟩
    · rw [← hurl]
      exact congrArg Entry.url hget
    · rw [hkind]
      exact congrArg some (congrArg Entry.kind hget).symm

end

/-- Records that are resolved are built into an index, in parts or not, and if the index can be
frozen, every kept record has a result in the file: its ID is the number of kept records before it,
name, flags and suffix length are its own, the URL is that of the record at the end of its chain of
aliases, and the kind is that of the first kept record that is no alias and has the normalized name
and the URL of that end. -/
theorem Index.build_shows_records [Search] {records : List EntryRecord} {r : Resolution}
    (hresolve : resolveRecords records = .ok r) (config : Config) (inParts : Bool) :
    (∀ p < records.length,
      r.ids[p]? = some (if Kept records p then some (keptBefore records p) else none)) ∧
    ∃ index, Index.build config inParts r.entries.toList = .ok index ∧
      ∀ frozen, index.finalize = .ok frozen →
        ∃ d, SearchData.parse frozen.encode.toArray = .ok d ∧
          ∀ p record, records[p]? = some record → Kept records p →
            ∃ result, d.result (keptBefore records p) = .ok result ∧
              result.name = record.name ∧ result.deprecated = record.deprecated ∧
              result.deleted = record.deleted ∧ result.suffixLength = record.suffixLength ∧
              ∃ last ending first found, EndsAt records p last ∧ records[last]? = some ending ∧
                result.url = ending.url ∧
                IsEarliest (Text.normalize config.caseInsensitive) records ending first found ∧
                found.kind = some result.kind := by
  have hr := Resolution.reflects_of_resolveRecords hresolve
  obtain ⟨index, hbuild, hsound, htable⟩ := build_of_admissible config inParts hr.admissible
  refine ⟨hr.id_eq, index, hbuild, fun frozen hfinal => ?_⟩
  have hfits := hsound.fits hfinal
  have hsame : frozen.table = index.table := by
    rw [(finalize_eq_ok hfinal).1]
    rfl
  refine ⟨frozen.reopened, hfits.parse_eq, fun p record hrecord hkept => ?_⟩
  have hforest : frozen.table.AliasForest := by
    rw [hsame]
    exact hsound.forest
  rw [← hsame] at htable
  obtain ⟨hid, hshown⟩ := result_of_kept hr htable hforest hrecord hkept
  exact ⟨_, hfits.result_eq hforest hid, hshown⟩

/-- A page, a record that is skipped and takes its alias along, a duplicate of the page in another
case, an alias of the duplicate and an alias of that alias. -/
def mixedRecords : List EntryRecord := [
  { name := "Über", url := "about.html", kind := some .page },
  { name := "no\ttab", url := "tab.html", kind := some .file },
  { name := "tab", aliasOf := some 1 },
  { name := "über", url := "about.html", kind := some .function, deprecated := true },
  { name := "about", aliasOf := some 3, suffixLength := 2 },
  { name := "info", kind := some .redirect, aliasOf := some 4, deleted := true }]

/-- The last record gets the ID 3, and shows the URL of the duplicate and the kind of the page. -/
theorem Index.build_shows_records_mixed :
    ∃ r, resolveRecords mixedRecords = .ok r ∧ Kept mixedRecords 5 ∧
      ∀ inParts, ∃ index frozen d result,
        Index.build {} inParts r.entries.toList = .ok index ∧ index.finalize = .ok frozen ∧
        SearchData.parse frozen.encode.toArray = .ok d ∧ d.result 3 = .ok result ∧
        result.name = "info" ∧ result.deleted = true ∧ result.url = "about.html" ∧
        result.kind = .page := by
  have hresolved : (resolveRecords mixedRecords).toOption.isSome = true := by decide +kernel
  have hfrozen : ∀ inParts, ((resolveRecords mixedRecords).toOption.bind fun r =>
      (Index.build {} inParts r.entries.toList).toOption.bind (·.finalize.toOption)).isSome =
        true := by
    decide +kernel
  have hkept : Kept mixedRecords 5 := by decide +kernel
  have hend : EndsAt mixedRecords 5 3 := .along rfl rfl (.along rfl rfl (.plain rfl rfl))
  have hpage : IsEarliest (Text.normalize true) mixedRecords
      { name := "über", url := "about.html", kind := some .function, deprecated := true } 0
      { name := "Über", url := "about.html", kind := some .page } :=
    { record_eq := rfl
      kept := by decide +kernel
      same := ⟨rfl, by decide +kernel, rfl⟩
      earliest := fun p hp => absurd hp (Nat.not_lt_zero p) }
  obtain ⟨r, hr⟩ := Option.isSome_iff_exists.mp hresolved
  have hresolve := toOption_eq_some.mp hr
  refine ⟨r, hresolve, hkept, fun inParts => ?_⟩
  obtain ⟨-, index, hbuild, hshown⟩ := Index.build_shows_records hresolve {} inParts
  obtain ⟨frozen, hfinal⟩ := Option.isSome_iff_exists.mp (hfrozen inParts)
  rw [hr, Option.bind_some, toOption_eq_some.mpr hbuild, Option.bind_some,
    toOption_eq_some] at hfinal
  obtain ⟨d, hparse, hresults⟩ := hshown frozen hfinal
  obtain ⟨result, hresult, hname, -, hdeleted, -, last, ending, first, found, hends, hending, hurl,
    hearliest, hkind⟩ := hresults 5 _ rfl hkept
  obtain rfl := hends.unique hend
  cases hending
  obtain rfl := hearliest.unique hpage
  exact ⟨index, frozen, d, result, hbuild, hfinal, hparse, hresult, hname, hdeleted, hurl,
    (Option.some.inj hkind).symm⟩

end PrefixSearch
