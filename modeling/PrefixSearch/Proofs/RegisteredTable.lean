import PrefixSearch.Proofs.AddingEntries
import PrefixSearch.Proofs.Operations

/-!
# The table of registered entries

Entries that may be registered are all registered, and the table that they make can be said without
running anything: the row of an entry depends on the entries before it alone, and what is
registered under a normalized name and a URL is the first entry that has both and is no alias.
From this follows where every alias and every duplicate leads.
-/

namespace PrefixSearch

/-- The entry is no alias and has the normalized name and the URL. -/
def Entry.hasKey (normalize : String → String) (name url : String) (entry : Entry) : Bool :=
  !entry.isAlias && (normalize entry.name == name && entry.url == url)

/-- The first of the entries that is no alias and has the normalized name and the URL. -/
def firstOf (normalize : String → String) (entries : List Entry) (name url : String) : Option Id :=
  entries.findIdx? (Entry.hasKey normalize name url)

/-- The earlier entry that an entry is the same as. -/
def duplicateIn (normalize : String → String) (earlier : List Entry) (entry : Entry) : Option Id :=
  if entry.isAlias then none else firstOf normalize earlier (normalize entry.name) entry.url

/-- The row of an entry that comes behind the others. -/
def rowOf (normalize : String → String) (earlier : List Entry) (entry : Entry) : Row :=
  match duplicateIn normalize earlier entry with
  | some kept => Row.mergeInto kept { entry }
  | none => { entry }

section

variable {normalize : String → String} {entries : List Entry} {entry : Entry} {name url : String}
  {id first : Id}

theorem Entry.hasKey_iff : entry.hasKey normalize name url = true ↔
    entry.isAlias = false ∧ normalize entry.name = name ∧ entry.url = url := by
  simp [hasKey]

theorem firstOf_eq_some_iff : firstOf normalize entries name url = some first ↔
    (∃ entry, entries[first]? = some entry ∧ entry.hasKey normalize name url = true) ∧
      ∀ id < first, ∀ entry, entries[id]? = some entry →
        entry.hasKey normalize name url = false := by
  rw [firstOf, List.findIdx?_eq_some_iff_getElem]
  constructor
  · rintro ⟨hfirst, hkey, hbefore⟩
    refine ⟨⟨entries[first], List.getElem?_eq_getElem hfirst, hkey⟩, ?_⟩
    intro id hid entry hentry
    obtain ⟨hlt, rfl⟩ := List.getElem?_eq_some_iff.mp hentry
    exact Bool.eq_false_iff.mpr (hbefore id hid)
  · rintro ⟨⟨entry, hentry, hkey⟩, hbefore⟩
    obtain ⟨hfirst, rfl⟩ := List.getElem?_eq_some_iff.mp hentry
    refine ⟨hfirst, hkey, fun id hid => ?_⟩
    have hlt : id < entries.length := Nat.lt_trans hid hfirst
    rw [hbefore id hid entries[id] (List.getElem?_eq_getElem hlt)]
    exact Bool.false_ne_true

theorem firstOf_concat (normalize : String → String) (entries : List Entry) (entry : Entry)
    (name url : String) : firstOf normalize (entries ++ [entry]) name url =
      (firstOf normalize entries name url).or
        (if entry.hasKey normalize name url then some entries.length else none) := by
  rw [firstOf, List.findIdx?_append, List.findIdx?_singleton, firstOf]
  split
  · rw [Option.map_some, Nat.zero_add]
  · rfl

/-- Entries that come later do not change which entry is the first. -/
theorem firstOf_of_take (hfirst : firstOf normalize (entries.take id) name url = some first) :
    firstOf normalize entries name url = some first := by
  rw [firstOf, ← List.take_append_drop id entries, List.findIdx?_append]
  have hfound : (entries.take id).findIdx? (Entry.hasKey normalize name url) = some first := hfirst
  rw [hfound]
  rfl

end

namespace ResultTable

/-- The entries were registered in the table, in their order. -/
structure Registers (t : ResultTable) (normalize : String → String) (entries : List Entry) :
    Prop where
  grown : t.Grown normalize
  size_eq : t.size = entries.length
  admissible : ∀ (id : Id) (entry : Entry), entries[id]? = some entry → entry.Admissible id
  row : ∀ (id : Id) (entry : Entry), entries[id]? = some entry →
    t.rows[id]? = some (rowOf normalize (entries.take id) entry)
  find : ∀ name url, t.find? name url = firstOf normalize entries name url

namespace Registers

variable {t u : ResultTable} {normalize : String → String} {entries : List Entry} {entry : Entry}
  {name url : String} {id first : Id}

theorem empty (normalize : String → String) : ({} : ResultTable).Registers normalize [] where
  grown := Grown.empty normalize
  size_eq := rfl
  admissible id entry hentry := by cases hentry
  row id entry hentry := by cases hentry
  find name url := by simp [find?, firstOf]

/-- The first entry of a key was not merged. -/
theorem row_first (ht : t.Registers normalize entries)
    (hfirst : firstOf normalize entries name url = some first) :
    ∃ entry, entries[first]? = some entry ∧ entry.hasKey normalize name url = true ∧
      t.rows[first]? = some { entry } ∧ entry.kind ≠ .redirect := by
  obtain ⟨⟨entry, hentry, hkey⟩, hbefore⟩ := firstOf_eq_some_iff.mp hfirst
  obtain ⟨hplain, rfl, rfl⟩ := Entry.hasKey_iff.mp hkey
  have hnone : firstOf normalize (entries.take first) (normalize entry.name) entry.url = none := by
    cases hfound : firstOf normalize (entries.take first) (normalize entry.name) entry.url with
    | none => rfl
    | some other =>
        -- a first entry among those before it would be the first of all
        have hsame := firstOf_of_take hfound
        rw [hfirst] at hsame
        obtain ⟨⟨found, hother, -⟩, -⟩ := firstOf_eq_some_iff.mp hfound
        have hlt := (List.getElem?_eq_some_iff.mp hother).1
        rw [List.length_take, ← Option.some.inj hsame] at hlt
        omega
  refine ⟨entry, hentry, hkey, ?_, ?_⟩
  · have hrow := ht.row first entry hentry
    rw [rowOf, duplicateIn, if_neg (by simp [hplain]), hnone] at hrow
    exact hrow
  · rw [Ne, (ht.admissible first entry hentry).kind_iff]
    exact Bool.eq_false_iff.mp hplain

/-- The table with one more row, which depends on the earlier entries. -/
theorem concat (ht : t.Registers normalize entries) (hentry : entry.Admissible entries.length)
    (hgrown : u.Grown normalize)
    (hrows : u.rows = (t.append (rowOf normalize entries entry)).rows)
    (hfind : ∀ name url, u.find? name url =
      (firstOf normalize entries name url).or
        (if entry.hasKey normalize name url then some entries.length else none)) :
    u.Registers normalize (entries ++ [entry]) where
  grown := hgrown
  size_eq := by rw [size_of_rows hrows, ht.size_eq, List.length_append, List.length_singleton]
  admissible := by
    intro id found hfound
    rcases getElem?_concat_eq_some.mp hfound with hold | ⟨rfl, rfl⟩
    · exact ht.admissible id found hold
    · exact hentry
  row := by
    intro id found hfound
    rw [hrows]
    rcases getElem?_concat_eq_some.mp hfound with hold | ⟨rfl, rfl⟩
    · have hid : id < entries.length := (List.getElem?_eq_some_iff.mp hold).1
      rw [rows_append_of_lt _ (by rwa [ht.size_eq]), ht.row id found hold,
        List.take_append_of_le_length (Nat.le_of_lt hid)]
    · rw [← ht.size_eq, rows_append_size, ht.size_eq, List.take_left']
      rfl
  find name url := by rw [hfind, firstOf_concat]

/-- A table that was added to finds what the earlier one found. -/
theorem find?_append (ht : t.Registers normalize entries) (row : Row) (name url : String) :
    (t.append row).find? name url = firstOf normalize entries name url :=
  ht.find name url

end Registers

end ResultTable

/-! ## Registering the next entry -/

namespace Index

variable {index : Index} {entries : List Entry} {entry : Entry} {kept : Id}

theorem duplicateOf?_eq (hindex : index.table.Registers index.normalize entries) (entry : Entry) :
    index.duplicateOf? entry = duplicateIn index.normalize entries entry := by
  rw [duplicateOf?, duplicateIn, hindex.find]

/-- An entry that is the same as none before it is added with a row of its own. -/
theorem registers_tableWith (hindex : index.table.Registers index.normalize entries)
    (hentry : entry.Admissible entries.length)
    (hfresh : duplicateIn index.normalize entries entry = none) :
    (index.tableWith entry).Registers index.normalize (entries ++ [entry]) := by
  have hgrown : (index.tableWith entry).Grown index.normalize := by
    refine grown_tableWith hindex.grown hentry.kind_iff ?_ ?_
    · rw [hindex.size_eq]
      exact hentry.target_lt
    · rwa [duplicateOf?_eq hindex]
  have hrows := tableWith_rows index entry
  refine hindex.concat hentry hgrown ?_ ?_
  · rw [rowOf, hfresh]
    exact hrows
  · intro name url
    rw [duplicateIn] at hfresh
    cases halias : entry.isAlias with
    | true =>
        rw [tableWith, halias, if_pos rfl, hindex.find?_append, Entry.hasKey, halias]
        simp
    | false =>
        rw [halias, if_neg Bool.false_ne_true] at hfresh
        have hget : (index.table.append { entry }).get index.table.size = entry :=
          ResultTable.get_last rfl
        rw [tableWith, halias, if_neg Bool.false_ne_true, ResultTable.find?_register, hget,
          hindex.find?_append, hindex.find?_append, hfresh]
        by_cases hkey : (index.normalize entry.name, entry.url) = (name, url)
        · obtain ⟨rfl, rfl⟩ := Prod.mk.inj hkey
          rw [if_pos ⟨rfl, rfl⟩, hfresh, Option.none_or,
            if_pos (Entry.hasKey_iff.mpr ⟨halias, rfl, rfl⟩), hindex.size_eq]
        · have hother : ¬ entry.hasKey index.normalize name url = true := by
            intro hhas
            obtain ⟨-, rfl, rfl⟩ := Entry.hasKey_iff.mp hhas
            exact hkey rfl
          rw [if_neg fun hboth => hkey hboth.1, if_neg hother, Option.or_none]

/-- An entry that is the same as an earlier one is added as a duplicate. -/
theorem registers_tableMerged (hindex : index.table.Registers index.normalize entries)
    (hentry : entry.Admissible entries.length)
    (hdup : duplicateIn index.normalize entries entry = some kept) :
    kept < index.table.size ∧ (index.table.get kept).kind ≠ .redirect ∧
      (index.tableMerged entry kept).Registers index.normalize (entries ++ [entry]) := by
  obtain ⟨hplain, hfirst⟩ : entry.isAlias = false ∧
      firstOf index.normalize entries (index.normalize entry.name) entry.url = some kept := by
    rw [duplicateIn] at hdup
    split at hdup
    · cases hdup
    · next hplain => exact ⟨Bool.eq_false_iff.mpr hplain, hdup⟩
  obtain ⟨original, -, -, hrow, hkind⟩ := hindex.row_first hfirst
  have hkept := ResultTable.lt_size_of_rows hrow
  refine ⟨hkept, ?_, ?_⟩
  · rwa [ResultTable.get_of_rows hrow]
  · refine hindex.concat hentry (hindex.grown.duplicate entry hkept) ?_ ?_
    · rw [rowOf, hdup]
      exact tableMerged_rows hindex.grown entry hkept
    · intro name url
      -- the duplicate is registered under no key, so no key leads to it
      have hsame : (firstOf index.normalize entries name url).map
          (fun id => if id = index.table.size then kept else id) =
            firstOf index.normalize entries name url := by
        cases hfound : firstOf index.normalize entries name url with
        | none => rfl
        | some first =>
            obtain ⟨_, -, -, hfirstRow, -⟩ := hindex.row_first hfound
            have hne := Nat.ne_of_lt (ResultTable.lt_size_of_rows hfirstRow)
            rw [Option.map_some, if_neg hne]
      rw [tableMerged, ResultTable.find?_merge, hindex.find?_append, hsame]
      split
      · next hkey =>
        obtain ⟨-, rfl, rfl⟩ := Entry.hasKey_iff.mp hkey
        rw [hfirst, Option.some_or]
      · rw [Option.or_none]

variable [Search]

theorem register_fresh (hentry : entry.Admissible index.table.size)
    (hfresh : index.duplicateOf? entry = none) :
    index.register entry = .ok (index.table.size,
      termsOf index.config index.table.size (index.normalize entry.name)
        (entry.keywords.map index.normalize),
      { index with table := index.tableWith entry }) := by
  have hpush := ResultTable.push_of hentry.kind_iff hentry.target_lt
  unfold register
  refine except_bind_eq_ok.mpr ⟨(), mapError_eq_ok.mpr hentry.supported, ?_⟩
  refine except_bind_eq_ok.mpr ⟨_, mapError_eq_ok.mpr hpush, ?_⟩
  dsimp only
  rw [hfresh]
  rfl

theorem register_duplicate (hentry : entry.Admissible index.table.size)
    (hdup : index.duplicateOf? entry = some kept) (hkept : kept < index.table.size)
    (hkind : (index.table.get kept).kind ≠ .redirect) :
    index.register entry = .ok (kept, index.keywordTerms kept entry,
      { index with
        table := index.tableMerged entry kept
        trie := index.trie.replace (index.tableMerged entry kept) index.table.size kept }) := by
  have hpush := ResultTable.push_of hentry.kind_iff hentry.target_lt
  have hmerge := (Sound.mergeable_append entry hkept hkind).mergeInto_eq
  unfold register
  refine except_bind_eq_ok.mpr ⟨(), mapError_eq_ok.mpr hentry.supported, ?_⟩
  refine except_bind_eq_ok.mpr ⟨_, mapError_eq_ok.mpr hpush, ?_⟩
  dsimp only
  rw [hdup]
  refine except_bind_eq_ok.mpr ⟨_, mapError_eq_ok.mpr ?_, rfl⟩
  exact except_bind_eq_ok.mpr ⟨_, hmerge, rfl⟩

/-- An entry that may be registered is registered. -/
theorem register_of_admissible (hindex : index.table.Registers index.normalize entries)
    (hentry : entry.Admissible entries.length) :
    ∃ id terms next, index.register entry = .ok (id, terms, next) ∧ next.config = index.config ∧
      next.table.Registers index.normalize (entries ++ [entry]) := by
  have hadmissible : entry.Admissible index.table.size := by rwa [hindex.size_eq]
  cases hdup : duplicateIn index.normalize entries entry with
  | none =>
      have hregister := register_fresh hadmissible (by rwa [duplicateOf?_eq hindex])
      exact ⟨_, _, _, hregister, rfl, registers_tableWith hindex hentry hdup⟩
  | some kept =>
      obtain ⟨hkept, hkind, htable⟩ := registers_tableMerged hindex hentry hdup
      have hregister := register_duplicate hadmissible (by rwa [duplicateOf?_eq hindex]) hkept hkind
      exact ⟨_, _, _, hregister, rfl, htable⟩

/-- Entries that may be registered one after the other are all registered. -/
theorem registerAll_of_admissible (config : Config)
    (hentries : ∀ (id : Id) (entry : Entry), entries[id]? = some entry → entry.Admissible id) :
    ∃ terms last, (empty config).registerAll entries = .ok (terms, last) ∧
      last.table.Registers (Text.normalize config.caseInsensitive) entries := by
  -- each entry meets the table of exactly the entries before it
  have hrun : ∀ (rest done : List Entry) (terms : List Term) (index : Index),
      done ++ rest = entries → index.config = config →
        index.table.Registers (Text.normalize config.caseInsensitive) done →
          ∃ all last, rest.foldlM registerNext (terms, index) = .ok (all, last) ∧
            last.table.Registers (Text.normalize config.caseInsensitive) entries := by
    intro rest
    induction rest with
    | nil =>
        intro done terms index hdone _ hindex
        rw [List.append_nil] at hdone
        exact ⟨terms, index, rfl, hdone ▸ hindex⟩
    | cons entry rest ih =>
        intro done terms index hdone hconfig hindex
        subst hconfig
        have hentry : entry.Admissible done.length := by
          refine hentries done.length entry ?_
          rw [← hdone, List.getElem?_append_right (Nat.le_refl _), Nat.sub_self]
          rfl
        obtain ⟨id, more, next, hregister, hnext, htable⟩ := register_of_admissible hindex hentry
        have hstep : registerNext (terms, index) entry = .ok (terms ++ more, next) := by
          rw [registerNext, hregister]
          rfl
        obtain ⟨all, last, hrest, hlast⟩ := ih (done ++ [entry]) (terms ++ more) next
          (by rw [List.append_assoc]; exact hdone) hnext htable
        exact ⟨all, last, foldlM_cons_eq_ok.mpr ⟨_, hstep, hrest⟩, hlast⟩
  exact hrun entries [] [] (empty config) rfl rfl (ResultTable.Registers.empty _)

end Index

/-! ## Where the entries lead -/

namespace ResultTable

namespace Registers

variable {t : ResultTable} {normalize : String → String} {entries : List Entry} {entry : Entry}
  {name url : String} {id first target : Id}

/-- An entry keeps its name, flags and suffix length, whether it is a duplicate or not. -/
theorem get_fields (ht : t.Registers normalize entries) (hentry : entries[id]? = some entry) :
    (t.get id).name = entry.name ∧ (t.get id).flags = entry.flags ∧
      (t.get id).suffixLength = entry.suffixLength := by
  rw [get_of_rows (ht.row id entry hentry), rowOf]
  cases duplicateIn normalize (entries.take id) entry with
  | none => exact ⟨rfl, rfl, rfl⟩
  | some kept => exact ⟨rfl, rfl, rfl⟩

theorem isEnd_first (ht : t.Registers normalize entries)
    (hfirst : firstOf normalize entries name url = some first) : t.IsEnd first := by
  obtain ⟨entry, -, -, hrow, hkind⟩ := ht.row_first hfirst
  refine isEnd_of_ne_redirect ?_
  rwa [get_of_rows hrow]

/-- An alias leads to its target. -/
theorem next?_alias (ht : t.Registers normalize entries) (hentry : entries[id]? = some entry)
    (htarget : entry.target = some target) : t.next? id = some target := by
  have halias : entry.isAlias = true := by rw [Entry.isAlias, htarget]; rfl
  have hkind := (ht.admissible id entry hentry).kind_iff.mpr halias
  have hrow := ht.row id entry hentry
  rw [rowOf, duplicateIn, if_pos halias] at hrow
  rw [next?, get_of_rows hrow, if_pos hkind, htarget]

/-- An entry that is no alias is the first of its key, or a duplicate that leads to it. -/
theorem leadsTo_first (ht : t.Registers normalize entries) (hentry : entries[id]? = some entry)
    (hplain : entry.isAlias = false) :
    ∃ first, firstOf normalize entries (normalize entry.name) entry.url = some first ∧
      t.LeadsTo id first := by
  have hrow := ht.row id entry hentry
  rw [rowOf, duplicateIn, if_neg (by rw [hplain]; exact Bool.false_ne_true)] at hrow
  -- its row was made when only the entries before it were there
  cases hearlier : firstOf normalize (entries.take id) (normalize entry.name) entry.url with
  | some first =>
      rw [hearlier] at hrow
      refine ⟨first, firstOf_of_take hearlier, 1, .along ?_ (.here first)⟩
      rw [next?, get_of_rows hrow]
      rfl
  | none =>
      refine ⟨id, firstOf_eq_some_iff.mpr ⟨⟨entry, hentry, ?_⟩, ?_⟩, LeadsTo.refl t id⟩
      · exact Entry.hasKey_iff.mpr ⟨hplain, rfl, rfl⟩
      · intro other hother found hfound
        have htake : (entries.take id)[other]? = some found := by
          rwa [List.getElem?_take_of_lt hother]
        exact List.findIdx?_eq_none_iff.mp hearlier found (List.mem_of_getElem? htake)

end Registers

end ResultTable

end PrefixSearch
