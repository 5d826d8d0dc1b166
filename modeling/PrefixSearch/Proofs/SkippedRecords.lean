import PrefixSearch.Proofs.KeptRecords

/-!
# Refused and skipped records

Records are resolved one after the other, and each one is first looked at for control characters.  A record
that has one is skipped, whatever else is wrong with it, and so the first record that is at fault among
those without control characters decides whether a list is refused.  In a list that is not refused every
alias leads back, so that skipping goes on from record to alias, and the IDs of the other records are
their numbers in the list of those that are left.
-/

namespace PrefixSearch

namespace Text

theorem firstControl?_eq_none {cs : List Char} (position : Nat) :
    firstControl? position cs = none ↔ ∀ c ∈ cs, isControl c = false := by
  induction cs generalizing position with
  | nil => simp [firstControl?]
  | cons c cs ih =>
      rw [firstControl?, List.forall_mem_cons]
      split
      · next hcontrol => simp [hcontrol]
      · next hcontrol => simp [hcontrol, ih]

theorem validate_eq_ok {text : String} :
    validate text = .ok () ↔ ∀ c ∈ text.toList, isControl c = false := by
  rw [← firstControl?_eq_none 0, validate]
  cases firstControl? 0 text.toList with
  | none => simp
  | some found => simp

end Text

namespace EntryRecord

variable {record : EntryRecord} {p q : Nat} {fault other : RecordFault}

/-! ## Records at fault -/

/-- No text of the record has a control character. -/
def IsClean (record : EntryRecord) : Prop :=
  ∀ text ∈ record.name :: record.url :: record.keywords, ∀ c ∈ text.toList, Text.isControl c = false

theorem isSupported_iff : record.isSupported = true ↔ record.IsClean := by
  have hall : record.IsClean ↔
      Text.validateAll (record.name :: record.url :: record.keywords) = .ok () := by
    rw [Text.validateAll_eq_ok]
    exact forall₂_congr fun text _ => Text.validate_eq_ok.symm
  rw [hall, isSupported]
  split
  · next hok => simp [hok]
  · next hfault => simp [hfault]

/-- What is wrong with a record at the position, apart from its characters. -/
inductive Faulty (p : Nat) (record : EntryRecord) : RecordFault → Prop
  | noKind (hplain : record.aliasOf = none) (hkind : record.kind = none) :
      Faulty p record (.noKind p)
  | aliasWithoutTarget (hplain : record.aliasOf = none) (hkind : record.kind = some .redirect) :
      Faulty p record (.aliasWithoutTarget p)
  | aliasWithKind {target : Nat} {kind : Kind} (halias : record.aliasOf = some target)
      (hkind : record.kind = some kind) (hne : kind ≠ .redirect) :
      Faulty p record (.aliasWithKind p kind)
  | forwardAlias {target : Nat} (halias : record.aliasOf = some target)
      (hkind : record.kind = none ∨ record.kind = some .redirect) (hle : p ≤ target) :
      Faulty p record (.forwardAlias p target)

/-- Resolving a record fails exactly if it has no control character and is at fault. -/
theorem resolve_eq_error (ids : Array (Option Id)) :
    record.resolve ids p = .error fault ↔ record.IsClean ∧ record.Faulty p fault := by
  rw [← isSupported_iff]
  constructor
  · intro hresolve
    unfold resolve at hresolve
    split at hresolve
    · cases hresolve
    · next hsupported =>
      refine ⟨by simpa using hsupported, ?_⟩
      split at hresolve
      · next target halias hkind =>
        split at hresolve
        · next hle =>
          cases hresolve
          exact .forwardAlias halias (.inl hkind) hle
        · cases hresolve
      · next target halias hkind =>
        split at hresolve
        · next hle =>
          cases hresolve
          exact .forwardAlias halias (.inr hkind) hle
        · cases hresolve
      · next kind hne halias hkind =>
        cases hresolve
        exact .aliasWithKind halias hkind hne
      · next hplain hkind =>
        cases hresolve
        exact .aliasWithoutTarget hplain hkind
      · cases hresolve
      · next hplain hkind =>
        cases hresolve
        exact .noKind hplain hkind
  · rintro ⟨hsupported, hfault⟩
    rw [resolve, hsupported]
    cases hfault with
    | noKind hplain hkind => simp [hplain, hkind]
    | aliasWithoutTarget hplain hkind => simp [hplain, hkind]
    | aliasWithKind halias hkind _ => simp [halias, hkind]
    | forwardAlias halias hkind hle => rcases hkind with hkind | hkind <;> simp [halias, hkind, hle]

/-- A record has one fault at most. -/
theorem Faulty.unique (hfault : record.Faulty p fault) (hother : record.Faulty p other) :
    fault = other := by
  cases hfault <;> cases hother <;> simp_all

/-- An alias that is not at fault leads back. -/
theorem lt_of_alias (halias : record.aliasOf = some q) (hfine : ∀ fault, ¬ record.Faulty p fault) :
    q < p := by
  refine Nat.not_le.mp fun hle => ?_
  cases hkind : record.kind with
  | none => exact hfine _ (.forwardAlias halias (.inl hkind) hle)
  | some kind =>
      by_cases hredirect : kind = .redirect
      · exact hfine _ (.forwardAlias halias (.inr (hkind.trans (congrArg some hredirect))) hle)
      · exact hfine _ (.aliasWithKind halias hkind hredirect)

end EntryRecord

section

variable {records : List EntryRecord} {record : EntryRecord} {r : Resolution} {p q n : Nat}
variable {fault other : RecordFault}

/-- The record at the position has no control character and is at fault. -/
def FaultAt (records : List EntryRecord) (p : Nat) (fault : RecordFault) : Prop :=
  ∃ record, records[p]? = some record ∧ record.IsClean ∧ record.Faulty p fault

theorem FaultAt.unique (hfault : FaultAt records p fault) (hother : FaultAt records p other) :
    fault = other := by
  obtain ⟨record, hrecord, -, hfault⟩ := hfault
  obtain ⟨found, hfound, -, hother⟩ := hother
  obtain rfl := Option.some.inj (hrecord.symm.trans hfound)
  exact hfault.unique hother

theorem faultAt_concat : FaultAt (records ++ [record]) p fault ↔
    FaultAt records p fault ∨
      p = records.length ∧ record.IsClean ∧ record.Faulty records.length fault := by
  constructor
  · rintro ⟨found, hfound, hclean, hfault⟩
    rcases getElem?_concat_eq_some.mp hfound with hold | ⟨rfl, rfl⟩
    · exact .inl ⟨found, hold, hclean, hfault⟩
    · exact .inr ⟨rfl, hclean, hfault⟩
  · rintro (⟨found, hold, hclean, hfault⟩ | ⟨rfl, hclean, hfault⟩)
    · exact ⟨found, getElem?_concat_eq_some.mpr (.inl hold), hclean, hfault⟩
    · exact ⟨record, getElem?_concat_eq_some.mpr (.inr ⟨rfl, rfl⟩), hclean, hfault⟩

theorem FaultAt.lt_length (hfault : FaultAt records p fault) : p < records.length := by
  obtain ⟨record, hrecord, -⟩ := hfault
  exact (List.getElem?_eq_some_iff.mp hrecord).1

/-! ## A run of resolutions -/

/-- The next record is at fault exactly if resolving it fails. -/
theorem Resolution.step_eq_error :
    r.step record = .error fault ↔ record.IsClean ∧ record.Faulty r.ids.size fault := by
  rw [← EntryRecord.resolve_eq_error r.ids, step, except_bind_eq_error]
  constructor
  · rintro (hfault | ⟨entry, -, hdone⟩)
    · exact hfault
    · cases entry <;> cases hdone
  · exact .inl

theorem resolveRecords_concat (records : List EntryRecord) (record : EntryRecord) :
    resolveRecords (records ++ [record]) = resolveRecords records >>= (·.step record) := by
  rw [resolveRecords, List.foldlM_append]
  exact bind_congr fun r => bind_pure (r.step record)

/-- No record of a list that is resolved is at fault. -/
theorem not_faultAt_of_resolveRecords (hresolve : resolveRecords records = .ok r) :
    ∀ p fault, ¬ FaultAt records p fault := by
  induction records using List.reverseRecOn generalizing r with
  | nil =>
      rintro p fault ⟨record, hrecord, -⟩
      cases hrecord
  | append_singleton records record ih =>
      rw [resolveRecords_concat] at hresolve
      obtain ⟨before, hbefore, hstep⟩ := except_bind_eq_ok.mp hresolve
      intro p fault hfault
      rcases faultAt_concat.mp hfault with hold | ⟨rfl, hlast⟩
      · exact ih hbefore p fault hold
      · rw [← (Resolution.reflects_of_resolveRecords hbefore).size_ids,
          ← Resolution.step_eq_error, hstep] at hlast
        cases hlast

/-- What a list is refused for is the fault of the first record that is at fault. -/
theorem faultAt_of_resolveRecords (hresolve : resolveRecords records = .error fault) :
    ∃ p, FaultAt records p fault ∧ ∀ q < p, ∀ other, ¬ FaultAt records q other := by
  induction records using List.reverseRecOn with
  | nil => cases hresolve
  | append_singleton records record ih =>
      rw [resolveRecords_concat] at hresolve
      -- before the end of the list there are the same faults as without the last record
      have hearlier : ∀ q < records.length, ∀ other, FaultAt (records ++ [record]) q other →
          FaultAt records q other := by
        intro q hq other hother
        rcases faultAt_concat.mp hother with hold | ⟨rfl, -⟩
        · exact hold
        · exact absurd hq (Nat.lt_irrefl _)
      rcases except_bind_eq_error.mp hresolve with hbefore | ⟨before, hbefore, hstep⟩
      · obtain ⟨p, hfault, hfirst⟩ := ih hbefore
        refine ⟨p, faultAt_concat.mpr (.inl hfault), fun q hq other hother => ?_⟩
        exact hfirst q hq other (hearlier q (Nat.lt_trans hq hfault.lt_length) other hother)
      · rw [Resolution.step_eq_error, (Resolution.reflects_of_resolveRecords hbefore).size_ids] at hstep
        refine ⟨records.length, faultAt_concat.mpr (.inr ⟨rfl, hstep⟩), fun q hq other hother => ?_⟩
        exact not_faultAt_of_resolveRecords hbefore q other (hearlier q hq other hother)

theorem resolveRecords_eq_error : resolveRecords records = .error fault ↔
    ∃ p, FaultAt records p fault ∧ ∀ q < p, ∀ other, ¬ FaultAt records q other := by
  refine ⟨faultAt_of_resolveRecords, ?_⟩
  rintro ⟨p, hfault, hfirst⟩
  cases hresolve : resolveRecords records with
  | ok r => exact (not_faultAt_of_resolveRecords hresolve p fault hfault).elim
  | error found =>
      obtain ⟨q, hfound, hfoundFirst⟩ := faultAt_of_resolveRecords hresolve
      rcases Nat.lt_trichotomy p q with hlt | rfl | hlt
      · exact (hfoundFirst p hlt fault hfault).elim
      · rw [hfault.unique hfound]
      · exact (hfirst q hlt found hfound).elim

theorem exists_faultAt_iff :
    (∃ fault, resolveRecords records = .error fault) ↔ ∃ p fault, FaultAt records p fault := by
  constructor
  · rintro ⟨fault, hresolve⟩
    obtain ⟨p, hfault, -⟩ := faultAt_of_resolveRecords hresolve
    exact ⟨p, fault, hfault⟩
  · rintro ⟨p, fault, hfault⟩
    cases hresolve : resolveRecords records with
    | ok r => exact (not_faultAt_of_resolveRecords hresolve p fault hfault).elim
    | error found => exact ⟨found, rfl⟩

/-! ## Skipped records -/

/-- The record at the position has a control character, or it is an alias of a skipped record. -/
inductive Skipped (records : List EntryRecord) : Nat → Prop
  | control {p : Nat} {record : EntryRecord} (hrecord : records[p]? = some record)
      (hcontrol : ¬ record.IsClean) : Skipped records p
  | along {p q : Nat} {record : EntryRecord} (hrecord : records[p]? = some record)
      (halias : record.aliasOf = some q) (htarget : Skipped records q) : Skipped records p

theorem Skipped.not_kept (hskipped : Skipped records p) : ¬ Kept records p := by
  induction hskipped with
  | control hrecord hcontrol =>
      intro hkept
      exact hcontrol (EntryRecord.isSupported_iff.mp ((kept_iff hrecord).mp hkept).1)
  | along hrecord halias _ ih => exact fun hkept => ih (hkept.kept_of_alias hrecord halias).2

/-- If no record is at fault, all records that are not skipped are kept. -/
theorem kept_of_not_skipped (hfine : ∀ p fault, ¬ FaultAt records p fault)
    (hp : p < records.length) (hskipped : ¬ Skipped records p) : Kept records p := by
  induction p using Nat.strongRecOn with
  | ind p ih =>
      have hrecord : records[p]? = some records[p] := List.getElem?_eq_getElem hp
      have hclean : records[p].IsClean := by
        by_contra hcontrol
        exact hskipped (.control hrecord hcontrol)
      refine (kept_iff hrecord).mpr ⟨EntryRecord.isSupported_iff.mpr hclean, fun q halias => ?_⟩
      have hq : q < p := EntryRecord.lt_of_alias halias fun fault hfault =>
        hfine p fault ⟨records[p], hrecord, hclean, hfault⟩
      exact ⟨hq, ih q hq (Nat.lt_trans hq hp) fun htarget => hskipped (.along hrecord halias htarget)⟩

theorem kept_iff_not_skipped (hresolve : resolveRecords records = .ok r) (hp : p < records.length) :
    Kept records p ↔ ¬ Skipped records p :=
  ⟨fun hkept hskipped => hskipped.not_kept hkept,
    kept_of_not_skipped (not_faultAt_of_resolveRecords hresolve) hp⟩

/-! ## The numbers of the others -/

/-- The positions of kept records below a bound, in their order. -/
def keptPositions (records : List EntryRecord) (n : Nat) : List Nat :=
  (List.range n).filter fun p => Kept records p

/-- The positions of the other records below a bound, in their order. -/
def skippedPositions (records : List EntryRecord) (n : Nat) : List Nat :=
  (List.range n).filter fun p => ¬ Kept records p

theorem mem_keptPositions : p ∈ keptPositions records n ↔ p < n ∧ Kept records p := by
  rw [keptPositions, List.mem_filter, List.mem_range, decide_eq_true_iff]

theorem mem_skippedPositions : p ∈ skippedPositions records n ↔ p < n ∧ ¬ Kept records p := by
  rw [skippedPositions, List.mem_filter, List.mem_range, decide_eq_true_iff]

theorem keptPositions_succ (records : List EntryRecord) (n : Nat) :
    keptPositions records (n + 1) =
      keptPositions records n ++ if Kept records n then [n] else [] := by
  rw [keptPositions, List.range_succ, List.filter_append]
  split
  · next hkept => simp [keptPositions, hkept]
  · next hskipped => simp [keptPositions, hskipped]

@[simp] theorem length_keptPositions (records : List EntryRecord) (n : Nat) :
    (keptPositions records n).length = keptBefore records n := by
  induction n with
  | zero => simp [keptPositions]
  | succ n ih =>
      rw [keptPositions_succ, keptBefore_succ, List.length_append, ih]
      split <;> rfl

/-- Every record is kept or skipped. -/
theorem length_skippedPositions (records : List EntryRecord) (n : Nat) :
    (skippedPositions records n).length + keptBefore records n = n := by
  have hall := (List.length_eq_length_filter_add (l := List.range n) (Kept records ·)).symm
  rw [List.length_range, ← keptPositions, length_keptPositions, Nat.add_comm] at hall
  simpa [skippedPositions] using hall

/-- The number of a kept record is its place in the list of them. -/
theorem getElem?_keptPositions (hkept : Kept records p) (hp : p < n) :
    (keptPositions records n)[keptBefore records p]? = some p := by
  induction n with
  | zero => exact absurd hp (Nat.not_lt_zero p)
  | succ n ih =>
      rw [keptPositions_succ]
      rcases Nat.lt_succ_iff_lt_or_eq.mp hp with hlt | rfl
      · rw [List.getElem?_append_left (by simpa using keptBefore_lt hkept hlt)]
        exact ih hlt
      · rw [if_pos hkept, ← length_keptPositions, List.getElem?_concat_length]

/-- The record with a number is the only one with it. -/
theorem kept_of_getElem?_keptPositions {i : Nat} (hi : (keptPositions records n)[i]? = some p) :
    p < n ∧ Kept records p ∧ keptBefore records p = i := by
  have hlength : i < keptBefore records n := by
    rw [← length_keptPositions]
    exact (List.getElem?_eq_some_iff.mp hi).1
  obtain ⟨q, hq, hkept, rfl⟩ := exists_kept_of_lt hlength
  obtain rfl := Option.some.inj ((getElem?_keptPositions hkept hq).symm.trans hi)
  exact ⟨hq, hkept, rfl⟩

namespace Resolution.Reflects

theorem ids_eq_none_iff (hr : r.Reflects records) (hp : p < records.length) :
    r.ids[p]? = some none ↔ ¬ Kept records p := by
  rw [hr.id_eq p hp, idOf]
  split
  · next hkept => simp [hkept]
  · next hskipped => simp [hskipped]

theorem skipped_eq (hr : r.Reflects records) :
    r.skipped = (skippedPositions records records.length).length := by
  have hall := length_skippedPositions records records.length
  have hcount := hr.skipped_add
  rw [hr.size_entries] at hcount
  omega

/-- The entry with a number is made from the record with this number, and its target is the number of the
record that this one names. -/
theorem entry_at (hr : r.Reflects records) {i : Nat}
    (hi : (keptPositions records records.length)[i]? = some p) :
    ∃ record, records[p]? = some record ∧ keptBefore records p = i ∧
      r.ids[p]? = some (some i) ∧ r.entries[i]? = some (record.entry (keptBefore records)) ∧
      ∀ q, record.aliasOf = some q → keptBefore records q < i ∧
        (keptPositions records records.length)[keptBefore records q]? = some q ∧
        (record.entry (keptBefore records)).target = some (keptBefore records q) := by
  obtain ⟨hp, hkept, rfl⟩ := kept_of_getElem?_keptPositions hi
  have hrecord : records[p]? = some records[p] := List.getElem?_eq_getElem hp
  refine ⟨records[p], hrecord, rfl, ?_, hr.entry_eq p _ hrecord hkept, fun q halias => ?_⟩
  · rw [hr.id_eq p hp, idOf, if_pos hkept]
  · obtain ⟨hlt, htarget⟩ := hkept.kept_of_alias hrecord halias
    refine ⟨keptBefore_lt htarget hlt, getElem?_keptPositions htarget (Nat.lt_trans hlt hp), ?_⟩
    rw [EntryRecord.target_entry, halias, Option.map_some]

end Resolution.Reflects

/-- A list of records is refused exactly if a record without control characters is at fault, and it is
refused for the first of them.  Otherwise exactly those records are skipped that have a control
character or are aliases of skipped ones; the others become entries, in their order, and the target of
an alias is the number of the entry made from the record that it names, which comes before its own. -/
theorem resolveRecords_cases (records : List EntryRecord) :
    ((∃ fault, resolveRecords records = .error fault) ↔ ∃ p fault, FaultAt records p fault) ∧
    (∀ fault, resolveRecords records = .error fault ↔
      ∃ p, FaultAt records p fault ∧ ∀ q < p, ∀ other, ¬ FaultAt records q other) ∧
    ∀ r, resolveRecords records = .ok r →
      (∀ p < records.length, r.ids[p]? = some none ↔ Skipped records p) ∧
      r.skipped + r.entries.size = records.length ∧
      ∃ (kept skipped : List Nat) (idOf : Nat → Id),
        kept.Pairwise (· < ·) ∧ skipped.Pairwise (· < ·) ∧
        (∀ p, p ∈ kept ↔ p < records.length ∧ ¬ Skipped records p) ∧
        (∀ p, p ∈ skipped ↔ p < records.length ∧ Skipped records p) ∧
        kept.length = r.entries.size ∧ skipped.length = r.skipped ∧
        ∀ i p, kept[i]? = some p → ∃ record, records[p]? = some record ∧ idOf p = i ∧
          r.ids[p]? = some (some i) ∧ r.entries[i]? = some (record.entry idOf) ∧
          ∀ q, record.aliasOf = some q → idOf q < i ∧ kept[idOf q]? = some q ∧
            (record.entry idOf).target = some (idOf q) := by
  refine ⟨exists_faultAt_iff, fun fault => resolveRecords_eq_error, fun r hresolve => ?_⟩
  have hr := Resolution.reflects_of_resolveRecords hresolve
  refine ⟨fun p hp => ?_, hr.skipped_add, keptPositions records records.length,
    skippedPositions records records.length, keptBefore records, List.pairwise_lt_range.filter _,
    List.pairwise_lt_range.filter _, fun p => ?_, fun p => ?_, ?_, hr.skipped_eq.symm,
    fun i p hi => hr.entry_at hi⟩
  · rw [hr.ids_eq_none_iff hp, kept_iff_not_skipped hresolve hp, not_not]
  · rw [mem_keptPositions]
    exact and_congr_right (kept_iff_not_skipped hresolve)
  · rw [mem_skippedPositions]
    exact and_congr_right fun hp => by rw [kept_iff_not_skipped hresolve hp, not_not]
  · rw [length_keptPositions, hr.size_entries]

/-- The second record and its alias are skipped, so the last one is an alias of the second entry. -/
example :
    (resolveRecords [{ name := "a", kind := some .page }, { name := "b\t" },
      { name := "c", aliasOf := some 1 }, { name := "d", kind := some .page },
      { name := "e", aliasOf := some 3 }]).toOption.map (fun r => (r.ids, r.skipped, r.entries[2]?)) =
    some (#[some 0, none, none, some 1, some 2], 2, some (.aliasTo "e" 1)) := by
  decide +kernel

end

end PrefixSearch
