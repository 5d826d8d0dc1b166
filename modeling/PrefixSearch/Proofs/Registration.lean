import PrefixSearch.Index
import PrefixSearch.Proofs.Runs
import PrefixSearch.Proofs.TableGrowth
import PrefixSearch.Proofs.Trie.Contents

/-!
# Registering entries

`RegisterOutcome` says once what registering an entry can do.  From it follows what a run of
registrations collects: exactly the texts that the entries of the final table own, each for the
entry that its owner was merged into.
-/

namespace PrefixSearch

/-- What is asked of an entry before it is registered in a table of the given size. -/
structure Entry.Admissible (size : Nat) (entry : Entry) : Prop where
  supported : Text.validateAll (Index.textsOf entry) = .ok ()
  kind_iff : entry.kind = .redirect ↔ entry.target.isSome = true
  target_lt : ∀ target, entry.target = some target → target < size

/-! ## What a registration can do -/

namespace Index

/-- The texts of the keywords of an entry, for the result that the entry belongs to. -/
def keywordTerms (index : Index) (id : Id) (entry : Entry) : List Term :=
  (entry.keywords.map index.normalize).map fun text =>
    { text := Text.utf8 text, id, exact := false }

/-- The table after an entry that is no duplicate was registered. -/
def tableWith (index : Index) (entry : Entry) : ResultTable :=
  if entry.isAlias then
    index.table.append { entry }
  else
    (index.table.append { entry }).register (index.normalize entry.name) index.table.size

/-- The table after an entry was registered as a duplicate of `kept`. -/
def tableMerged (index : Index) (entry : Entry) (kept : Id) : ResultTable :=
  (index.table.append { entry }).merge kept index.table.size

/-- All that registering an entry can do. -/
inductive RegisterOutcome [Search] (index : Index) (entry : Entry) : Id → List Term → Index → Prop
  | fresh (hkind : entry.kind = .redirect ↔ entry.target.isSome = true)
      (htarget : ∀ target, entry.target = some target → target < index.table.size)
      (hfresh : index.duplicateOf? entry = none) :
      RegisterOutcome index entry index.table.size
        (termsOf index.config index.table.size (index.normalize entry.name)
          (entry.keywords.map index.normalize))
        { index with table := index.tableWith entry }
  | duplicate (kept : Id) (hkept : kept < index.table.size)
      (hkind : (index.table.get kept).kind ≠ .redirect) :
      RegisterOutcome index entry kept (index.keywordTerms kept entry)
        { index with
          table := index.tableMerged entry kept
          trie := index.trie.replace (index.tableMerged entry kept) index.table.size kept }

theorem register_outcome [Search] {index next : Index} {entry : Entry} {id : Id} {terms : List Term}
    (hregister : index.register entry = .ok (id, terms, next)) :
    RegisterOutcome index entry id terms next := by
  unfold register at hregister
  obtain ⟨_, -, hregister⟩ := except_bind_eq_ok.mp hregister
  obtain ⟨⟨new, table⟩, hpush, hregister⟩ := except_bind_eq_ok.mp hregister
  obtain ⟨hkind, htarget, rfl, rfl⟩ := ResultTable.push_eq_ok (mapError_eq_ok.mp hpush)
  dsimp only at hregister
  split at hregister
  · next kept hdup =>
    obtain ⟨merged, hmerge, hregister⟩ := except_bind_eq_ok.mp hregister
    obtain ⟨mergedTable, htable, hmerged⟩ := except_bind_eq_ok.mp (mapError_eq_ok.mp hmerge)
    obtain ⟨hkept, -, hne, hkeptKind, rfl⟩ := ResultTable.mergeInto_eq_ok htable
    cases hmerged
    cases hregister
    rw [ResultTable.size_append] at hkept
    have hlt : id < index.table.size := Nat.lt_of_le_of_ne (Nat.le_of_lt_succ hkept) hne
    refine .duplicate id hlt ?_
    rwa [ResultTable.get, ResultTable.get?, ResultTable.rows_append_of_lt _ hlt] at hkeptKind
  · next hdup =>
    cases hregister
    exact .fresh hkind htarget hdup

/-- What registers has passed the checks of the table. -/
theorem register_pushes [Search] {index next : Index} {entry : Entry} {id : Id} {terms : List Term}
    (hregister : index.register entry = .ok (id, terms, next)) :
    (entry.kind = .redirect ↔ entry.target.isSome = true) ∧
      ∀ target, entry.target = some target → target < index.table.size := by
  unfold register at hregister
  obtain ⟨_, -, hregister⟩ := except_bind_eq_ok.mp hregister
  obtain ⟨⟨new, table⟩, hpush, -⟩ := except_bind_eq_ok.mp hregister
  obtain ⟨hkind, htarget, -⟩ := ResultTable.push_eq_ok (mapError_eq_ok.mp hpush)
  exact ⟨hkind, htarget⟩

/-! ## What a run of registrations collects -/

/-- The texts that find an entry exactly. -/
def exactTexts (index : Index) (entry : Entry) : List String :=
  index.normalize entry.name ::
    if index.config.indexScopeSuffixes then
      Text.scopeSuffixes index.config.scopeSeparator (index.normalize entry.name)
    else
      []

/-- The ID was kept, and the text is its name or, if these are indexed, a scope suffix of it. -/
def OwnsExactly (index : Index) (id : Id) (text : List UInt8) : Prop :=
  index.table.IsKept id ∧
    ∃ name ∈ index.exactTexts (index.table.get id), Text.utf8 name = text

/-- The ID was kept, and the text is a keyword of its entry or of a duplicate merged into it. -/
def OwnsKeyword (index : Index) (id : Id) (text : List UInt8) : Prop :=
  index.table.IsKept id ∧
    ∃ other < index.table.size, index.table.canonicalId other = id ∧
      ∃ keyword ∈ (index.table.get other).keywords, Text.utf8 (index.normalize keyword) = text

/-- The text leads to the ID. -/
def Owns (index : Index) (id : Id) (text : List UInt8) : Prop :=
  index.OwnsExactly id text ∨ index.OwnsKeyword id text

theorem Owns.isKept {index : Index} {id : Id} {text : List UInt8} (howns : index.Owns id text) :
    index.table.IsKept id :=
  howns.elim And.left And.left

/-- The texts are those that the entries of the table own. -/
structure Collected (index : Index) (terms : List Term) : Prop where
  grown : index.table.Grown index.normalize
  exact_iff : ∀ id text, { text, id, exact := true } ∈ terms ↔ index.OwnsExactly id text
  keyword_iff : ∀ id text, { text, id, exact := false } ∈ terms ↔ index.OwnsKeyword id text

theorem collected_empty (config : Config) : (empty config).Collected [] := by
  have hnone : ∀ id, ¬ (empty config).table.IsKept id := fun id hid => Nat.not_lt_zero id hid.1
  refine ⟨ResultTable.Grown.empty _, ?_, ?_⟩
  · simp [OwnsExactly, hnone]
  · simp [OwnsKeyword, hnone]

/-- Only kept IDs have texts. -/
theorem Collected.isKept {index : Index} {terms : List Term} (hterms : index.Collected terms)
    {id : Id} (hid : id ∈ terms.map Term.id) : index.table.IsKept id := by
  obtain ⟨⟨text, id, exact⟩, hterm, rfl⟩ := List.mem_map.mp hid
  cases exact with
  | true => exact ((hterms.exact_iff id text).mp hterm).1
  | false => exact ((hterms.keyword_iff id text).mp hterm).1

theorem Collected.mem_iff {index : Index} {terms : List Term} (hterms : index.Collected terms)
    {id : Id} {text : List UInt8} :
    (∃ term ∈ terms, term.text = text ∧ term.id = id) ↔ index.Owns id text := by
  rw [Owns, ← hterms.exact_iff, ← hterms.keyword_iff]
  constructor
  · rintro ⟨⟨text, id, exact⟩, hterm, rfl, rfl⟩
    cases exact with
    | true => exact Or.inl hterm
    | false => exact Or.inr hterm
  · rintro (hterm | hterm)
    · exact ⟨_, hterm, rfl, rfl⟩
    · exact ⟨_, hterm, rfl, rfl⟩

theorem tableWith_rows (index : Index) (entry : Entry) :
    (index.tableWith entry).rows = (index.table.append { entry }).rows := by
  unfold tableWith
  split <;> rfl

theorem tableMerged_rows {index : Index} (hgrown : index.table.Grown index.normalize)
    (entry : Entry) {kept : Id} (hkept : kept < index.table.size) :
    (index.tableMerged entry kept).rows =
      (index.table.append (Row.mergeInto kept { entry })).rows :=
  ResultTable.rows_merge_last (Nat.ne_of_lt hkept) entry hgrown.not_to_size

theorem mem_keywordTerms {index : Index} {kept id : Id} {entry : Entry} {text : List UInt8}
    {exact : Bool} :
    { text, id, exact } ∈ index.keywordTerms kept entry ↔
      exact = false ∧ id = kept ∧
        ∃ keyword ∈ entry.keywords, Text.utf8 (index.normalize keyword) = text := by
  simp only [keywordTerms, List.mem_map, Term.mk.injEq, exists_exists_and_eq_and]
  constructor
  · rintro ⟨keyword, hkeyword, htext, rfl, rfl⟩
    exact ⟨rfl, rfl, keyword, hkeyword, htext⟩
  · rintro ⟨rfl, rfl, keyword, hkeyword, htext⟩
    exact ⟨keyword, hkeyword, htext, rfl, rfl⟩

theorem mem_termsOf {index : Index} {new id : Id} {entry : Entry} {text : List UInt8}
    {exact : Bool} :
    { text, id, exact } ∈
        termsOf index.config new (index.normalize entry.name)
          (entry.keywords.map index.normalize) ↔
      (exact = true ∧ id = new ∧ ∃ name ∈ index.exactTexts entry, Text.utf8 name = text) ∨
        (exact = false ∧ id = new ∧
          ∃ keyword ∈ entry.keywords, Text.utf8 (index.normalize keyword) = text) := by
  have hsplit : termsOf index.config new (index.normalize entry.name)
      (entry.keywords.map index.normalize) =
        (index.exactTexts entry).map
          (fun text => { text := Text.utf8 text, id := new, exact := true }) ++
        index.keywordTerms new entry := rfl
  rw [hsplit, List.mem_append, mem_keywordTerms, List.mem_map]
  refine or_congr_left ?_
  simp only [Term.mk.injEq]
  constructor
  · rintro ⟨name, hname, htext, rfl, rfl⟩
    exact ⟨rfl, rfl, name, hname, htext⟩
  · rintro ⟨rfl, rfl, name, hname, htext⟩
    exact ⟨name, hname, htext, rfl, rfl⟩

/-- What a longer table changes about the texts that are owned exactly. -/
theorem ownsExactly_iff {index : Index} {table : ResultTable} {new : Row}
    (hrows : table.rows = (index.table.append new).rows) (id : Id) (text : List UInt8) :
    { index with table }.OwnsExactly id text ↔ index.OwnsExactly id text ∨
      (id = index.table.size ∧ new.mergedInto = none ∧
        ∃ name ∈ index.exactTexts new.entry, Text.utf8 name = text) := by
  have hkept := ResultTable.isKept_iff hrows id
  constructor
  · rintro ⟨hid, name, hname, htext⟩
    rcases hkept.mp hid with hold | ⟨rfl, hmerged⟩
    · rw [ResultTable.get_of_lt hrows hold.1] at hname
      exact Or.inl ⟨hold, name, hname, htext⟩
    · rw [ResultTable.get_last hrows] at hname
      exact Or.inr ⟨rfl, hmerged, name, hname, htext⟩
  · rintro (⟨hold, name, hname, htext⟩ | ⟨rfl, hmerged, name, hname, htext⟩)
    · refine ⟨hkept.mpr (Or.inl hold), name, ?_, htext⟩
      rwa [ResultTable.get_of_lt hrows hold.1]
    · refine ⟨hkept.mpr (Or.inr ⟨rfl, hmerged⟩), name, ?_, htext⟩
      rwa [ResultTable.get_last hrows]

/-- What a longer table changes about the keywords that are owned. -/
theorem ownsKeyword_iff {index : Index} {table : ResultTable} {new : Row}
    (hgrown : index.table.Grown index.normalize)
    (hrows : table.rows = (index.table.append new).rows)
    (hmerged : ∀ kept, new.mergedInto = some kept → index.table.IsKept kept)
    (id : Id) (text : List UInt8) :
    { index with table }.OwnsKeyword id text ↔ index.OwnsKeyword id text ∨
      (id = new.mergedInto.getD index.table.size ∧
        ∃ keyword ∈ new.entry.keywords, Text.utf8 (index.normalize keyword) = text) := by
  have hkept := ResultTable.isKept_iff hrows id
  have hsize := ResultTable.size_of_rows hrows
  constructor
  · rintro ⟨hid, other, hother, hcanonical, keyword, hkeyword, htext⟩
    rcases Nat.lt_succ_iff_lt_or_eq.mp (Nat.lt_of_lt_of_eq hother hsize) with hlt | rfl
    · rw [ResultTable.canonicalId_of_lt hrows hlt] at hcanonical
      rw [ResultTable.get_of_lt hrows hlt] at hkeyword
      refine Or.inl ⟨?_, other, hlt, hcanonical, keyword, hkeyword, htext⟩
      -- an older entry was merged into one that is older still, not into the new one
      refine (hkept.mp hid).resolve_right ?_
      rintro ⟨rfl, -⟩
      have hle := hgrown.canonicalId_le hlt
      rw [hcanonical] at hle
      exact Nat.not_le_of_lt hlt hle
    · rw [ResultTable.canonicalId_last hrows] at hcanonical
      rw [ResultTable.get_last hrows] at hkeyword
      exact Or.inr ⟨hcanonical.symm, keyword, hkeyword, htext⟩
  · rintro (⟨hid, other, hother, hcanonical, keyword, hkeyword, htext⟩ |
      ⟨rfl, keyword, hkeyword, htext⟩)
    · refine ⟨hkept.mpr (Or.inl hid), other, ?_, ?_, keyword, ?_, htext⟩
      · rw [hsize]
        exact Nat.lt_succ_of_lt hother
      · rwa [ResultTable.canonicalId_of_lt hrows hother]
      · rwa [ResultTable.get_of_lt hrows hother]
    · refine ⟨hkept.mpr ?_, index.table.size, ?_, ?_, keyword, ?_, htext⟩
      · cases hnew : new.mergedInto with
        | none => exact Or.inr ⟨rfl, rfl⟩
        | some kept => exact Or.inl (hmerged kept hnew)
      · rw [hsize]
        exact Nat.lt_succ_self _
      · exact ResultTable.canonicalId_last hrows
      · rwa [ResultTable.get_last hrows]

theorem grown_tableWith {index : Index} {entry : Entry}
    (hgrown : index.table.Grown index.normalize)
    (hkind : entry.kind = .redirect ↔ entry.target.isSome = true)
    (htarget : ∀ target, entry.target = some target → target < index.table.size)
    (hfresh : index.duplicateOf? entry = none) :
    (index.tableWith entry).Grown index.normalize := by
  refine hgrown.fresh entry _ (tableWith_rows index entry) htarget ?_ ?_
  · intro name url old hold
    unfold tableWith
    split
    · exact hold
    · rw [ResultTable.find?_register, if_neg]
      · exact hold
      · rintro ⟨hkey, hnone⟩
        obtain ⟨rfl, rfl⟩ := Prod.mk.inj hkey
        have habsent : index.table.find? _ _ = none := hnone
        rw [hold] at habsent
        cases habsent
  · intro hnoRedirect
    have halias : entry.isAlias = false := by
      rw [Ne, hkind] at hnoRedirect
      simpa [Entry.isAlias] using hnoRedirect
    have hget : (index.table.append { entry }).get index.table.size = entry :=
      ResultTable.get_of_rows (ResultTable.rows_append_size index.table { entry })
    rw [duplicateOf?, halias] at hfresh
    rw [tableWith, halias, if_neg Bool.false_ne_true, ResultTable.find?_register, hget]
    exact if_pos ⟨rfl, hfresh⟩

/-- Every registration collects the texts of the entry that it adds. -/
theorem Collected.register [Search] {index next : Index} {terms more : List Term} {entry : Entry} {id : Id}
    (hterms : index.Collected terms) (hregister : index.register entry = .ok (id, more, next)) :
    next.Collected (terms ++ more) := by
  have houtcome := register_outcome hregister
  cases houtcome with
  | fresh hkind htarget hfresh =>
      have hrows := tableWith_rows index entry
      refine ⟨grown_tableWith hterms.grown hkind htarget hfresh, ?_, ?_⟩
      · intro id text
        rw [ownsExactly_iff hrows, List.mem_append, hterms.exact_iff, mem_termsOf]
        simp
      · intro id text
        rw [ownsKeyword_iff hterms.grown hrows (by simp), List.mem_append, hterms.keyword_iff,
          mem_termsOf]
        simp
  | duplicate _ hkept hkind =>
      -- a duplicate owns nothing itself, and its keywords go to the entry it is merged into
      have hrows := tableMerged_rows hterms.grown entry hkept
      have hisKept : ∀ target, (Row.mergeInto id { entry }).mergedInto = some target →
          index.table.IsKept target := by
        rintro target ⟨rfl⟩
        exact hterms.grown.isKept_of_ne_redirect hkept hkind
      refine ⟨hterms.grown.duplicate entry hkept, ?_, ?_⟩
      · intro id text
        have howns := ownsExactly_iff hrows id text
        rw [List.mem_append, hterms.exact_iff, mem_keywordTerms]
        refine Iff.trans ?_ howns.symm
        simp [Row.mergeInto]
      · intro id text
        have howns := ownsKeyword_iff hterms.grown hrows hisKept id text
        rw [List.mem_append, hterms.keyword_iff, mem_keywordTerms]
        refine Iff.trans ?_ howns.symm
        simp [Row.mergeInto]

end Index

end PrefixSearch
