import Mathlib.Data.List.Induction
import PrefixSearch.Proofs.Registration
import PrefixSearch.Records

/-!
# The entries of a list of records

Which records are kept can be said without the IDs that they get: a record is kept if its texts are
supported and, if it is an alias, the record it names is kept.  Kept records get their IDs in order,
so the ID of a record is the number of kept records before it, and the entry of an alias leads to
the ID of the record that the alias names.
-/

namespace PrefixSearch

/-! ## Kept records -/

/-- Whether a record is kept, given which of the records before it are. -/
def EntryRecord.isKept (earlier : List Bool) (record : EntryRecord) : Bool :=
  record.isSupported && record.aliasOf.all fun target => earlier[target]? == some true

/-- Which of the records are kept. -/
def keptFlags (records : List EntryRecord) : List Bool :=
  records.foldl (fun earlier record => earlier ++ [record.isKept earlier]) []

/-- The record at the position is kept. -/
def Kept (records : List EntryRecord) (p : Nat) : Prop :=
  (keptFlags records)[p]? = some true

instance (records : List EntryRecord) (p : Nat) : Decidable (Kept records p) :=
  inferInstanceAs (Decidable (_ = some true))

/-- The number of kept records before the position. -/
def keptBefore (records : List EntryRecord) (p : Nat) : Nat :=
  ((keptFlags records).take p).count true

section

variable {records : List EntryRecord} {record : EntryRecord} {p q : Nat}

theorem keptFlags_concat (records : List EntryRecord) (record : EntryRecord) :
    keptFlags (records ++ [record]) = keptFlags records ++ [record.isKept (keptFlags records)] := by
  rw [keptFlags, List.foldl_append]
  rfl

@[simp] theorem length_keptFlags (records : List EntryRecord) :
    (keptFlags records).length = records.length := by
  induction records using List.reverseRecOn with
  | nil => rfl
  | append_singleton records record ih =>
      rw [keptFlags_concat, List.length_append, List.length_append, ih]
      rfl

theorem kept_concat_of_lt (record : EntryRecord) (hp : p < records.length) :
    Kept (records ++ [record]) p ↔ Kept records p := by
  rw [Kept, Kept, keptFlags_concat, List.getElem?_append_left (by rwa [length_keptFlags])]

theorem kept_concat_length (records : List EntryRecord) (record : EntryRecord) :
    Kept (records ++ [record]) records.length ↔ record.isKept (keptFlags records) = true := by
  rw [Kept, keptFlags_concat, ← length_keptFlags, List.getElem?_concat_length, Option.some.injEq]

/-- Records that come later do not change the number of kept ones before a position. -/
theorem keptBefore_concat (record : EntryRecord) (hp : p ≤ records.length) :
    keptBefore (records ++ [record]) p = keptBefore records p := by
  rw [keptBefore, keptBefore, keptFlags_concat,
    List.take_append_of_le_length (by rwa [length_keptFlags])]

theorem Kept.lt_length (hkept : Kept records p) : p < records.length := by
  rw [← length_keptFlags]
  exact (List.getElem?_eq_some_iff.mp hkept).1

@[simp] theorem keptBefore_zero (records : List EntryRecord) : keptBefore records 0 = 0 := by
  rw [keptBefore, List.take_zero, List.count_nil]

theorem keptBefore_succ (records : List EntryRecord) (p : Nat) :
    keptBefore records (p + 1) = keptBefore records p + if Kept records p then 1 else 0 := by
  rw [keptBefore, keptBefore, List.take_add_one, List.count_append]
  split
  · next hkept =>
    have hflag : (keptFlags records)[p]? = some true := hkept
    rw [hflag]
    rfl
  · next hskipped =>
    cases hflag : (keptFlags records)[p]? with
    | none => rfl
    | some flag =>
        cases flag with
        | false => rfl
        | true => exact absurd hflag hskipped

theorem keptBefore_mono (hpq : p ≤ q) : keptBefore records p ≤ keptBefore records q := by
  induction hpq with
  | refl => exact Nat.le_refl _
  | step _ ih =>
      rw [keptBefore_succ]
      exact Nat.le_add_right_of_le ih

/-- Of two records, a kept one that comes first gets the lower ID. -/
theorem keptBefore_lt (hkept : Kept records p) (hpq : p < q) :
    keptBefore records p < keptBefore records q := by
  have hmono : keptBefore records (p + 1) ≤ keptBefore records q := keptBefore_mono hpq
  rw [keptBefore_succ, if_pos hkept] at hmono
  exact hmono

/-- Every lower number is that of a kept record. -/
theorem exists_kept_of_lt {i : Nat} (hi : i < keptBefore records p) :
    ∃ q < p, Kept records q ∧ keptBefore records q = i := by
  induction p with
  | zero =>
      rw [keptBefore_zero] at hi
      exact absurd hi (Nat.not_lt_zero i)
  | succ p ih =>
      rcases Nat.lt_or_ge i (keptBefore records p) with hlt | hge
      · obtain ⟨q, hq, hfound⟩ := ih hlt
        exact ⟨q, Nat.lt_succ_of_lt hq, hfound⟩
      · rw [keptBefore_succ] at hi
        split at hi
        · next hkept => exact ⟨p, Nat.lt_succ_self p, hkept, by omega⟩
        · omega

end

/-- The chain of aliases that begins at one position ends at another one, where the record is no
alias. -/
inductive EndsAt (records : List EntryRecord) : Nat → Nat → Prop
  | plain {p : Nat} {record : EntryRecord} (hrecord : records[p]? = some record)
      (hplain : record.aliasOf = none) : EndsAt records p p
  | along {p q last : Nat} {record : EntryRecord} (hrecord : records[p]? = some record)
      (halias : record.aliasOf = some q) (hrest : EndsAt records q last) : EndsAt records p last

theorem EndsAt.unique {records : List EntryRecord} {p last other : Nat}
    (hlast : EndsAt records p last) (hother : EndsAt records p other) : last = other := by
  induction hlast with
  | plain hrecord hplain =>
      cases hother with
      | plain => rfl
      | along hrecord' halias _ =>
          obtain rfl := Option.some.inj (hrecord.symm.trans hrecord')
          rw [hplain] at halias
          cases halias
  | along hrecord halias _ ih =>
      cases hother with
      | plain hrecord' hplain =>
          obtain rfl := Option.some.inj (hrecord.symm.trans hrecord')
          rw [hplain] at halias
          cases halias
      | along hrecord' halias' hrest =>
          obtain rfl := Option.some.inj (hrecord.symm.trans hrecord')
          obtain rfl := Option.some.inj (halias.symm.trans halias')
          exact ih hrest

/-! ## What resolving a record can do -/

namespace EntryRecord

/-- The entry of a record, given the IDs of the records before it.  A record that is no alias has a
kind if it is resolved. -/
def entry (idOf : Nat → Id) (record : EntryRecord) : Entry :=
  match record.aliasOf with
  | some target => record.complete (.aliasTo record.name (idOf target))
  | none => record.complete { name := record.name, url := record.url, kind := record.kind.getD default }

/-- All that resolving a record can do. -/
inductive ResolveOutcome (ids : Array (Option Id)) (position : Nat) (record : EntryRecord) :
    Option Entry → Prop
  | unsupported (hsupported : record.isSupported = false) : ResolveOutcome ids position record none
  | skippedTarget {target : Nat} (halias : record.aliasOf = some target)
      (hlt : target < position) (hid : ids[target]?.bind id = none) :
      ResolveOutcome ids position record none
  | redirect {target : Nat} {new : Id} (hsupported : record.isSupported = true)
      (halias : record.aliasOf = some target) (hlt : target < position)
      (hid : ids[target]?.bind id = some new) :
      ResolveOutcome ids position record (some (record.complete (.aliasTo record.name new)))
  | plain {kind : Kind} (hsupported : record.isSupported = true)
      (halias : record.aliasOf = none) (hkind : record.kind = some kind) (hne : kind ≠ .redirect) :
      ResolveOutcome ids position record
        (some (record.complete { name := record.name, url := record.url, kind }))

theorem resolve_outcome {ids : Array (Option Id)} {position : Nat} {record : EntryRecord}
    {entry : Option Entry} (hresolve : record.resolve ids position = .ok entry) :
    ResolveOutcome ids position record entry := by
  unfold resolve at hresolve
  split at hresolve
  · next hsupported =>
    cases hresolve
    exact .unsupported (by simpa using hsupported)
  · next hsupported =>
    have hok : record.isSupported = true := by simpa using hsupported
    have halias : ∀ target, record.aliasOf = some target →
        (if position ≤ target then Except.error (RecordFault.forwardAlias position target)
          else Except.ok ((ids[target]?.bind id).map fun id =>
            record.complete (.aliasTo record.name id))) = Except.ok entry →
              ResolveOutcome ids position record entry := by
      intro target htarget hfound
      split at hfound
      · cases hfound
      · next hlt =>
        obtain rfl := Except.ok.inj hfound
        cases hid : ids[target]?.bind id with
        | none => exact .skippedTarget htarget (Nat.not_le.mp hlt) hid
        | some new => exact .redirect hok htarget (Nat.not_le.mp hlt) hid
    split at hresolve
    · next target htarget _ => exact halias target htarget hresolve
    · next target htarget _ => exact halias target htarget hresolve
    · cases hresolve
    · cases hresolve
    · next kind hne htarget hkind =>
      cases hresolve
      exact .plain hok htarget hkind hne
    · cases hresolve

theorem entry_congr {idOf other : Nat → Id} {record : EntryRecord}
    (hsame : ∀ q, record.aliasOf = some q → idOf q = other q) :
    record.entry idOf = record.entry other := by
  unfold entry
  cases halias : record.aliasOf with
  | none => rfl
  | some q =>
      dsimp only
      rw [hsame q halias]

end EntryRecord

/-! ## What a run of resolutions gives -/

/-- A record is kept if its texts are supported and, if it is an alias, the record it names comes
before it and is kept. -/
theorem kept_iff {records : List EntryRecord} {p : Nat} {record : EntryRecord}
    (hrecord : records[p]? = some record) :
    Kept records p ↔ record.isSupported = true ∧
      ∀ q, record.aliasOf = some q → q < p ∧ Kept records q := by
  induction records using List.reverseRecOn with
  | nil => cases hrecord
  | append_singleton records last ih =>
      -- an alias names an earlier record, for which the last one changes nothing
      have hearlier : ∀ q < records.length, Kept (records ++ [last]) q ↔ Kept records q :=
        fun q hq => kept_concat_of_lt last hq
      rcases getElem?_concat_eq_some.mp hrecord with hold | ⟨rfl, rfl⟩
      · have hp : p < records.length := (List.getElem?_eq_some_iff.mp hold).1
        rw [hearlier p hp, ih hold]
        refine and_congr_right fun _ => forall₂_congr fun q _ => and_congr_right fun hq => ?_
        exact (hearlier q (Nat.lt_trans hq hp)).symm
      · have hflag : ∀ q, Kept records q ↔ q < records.length ∧ Kept (records ++ [last]) q := by
          intro q
          constructor
          · intro hq
            exact ⟨hq.lt_length, (hearlier q hq.lt_length).mpr hq⟩
          · rintro ⟨hlt, hq⟩
            exact (hearlier q hlt).mp hq
        rw [kept_concat_length, EntryRecord.isKept, Bool.and_eq_true, Option.all_eq_true]
        simp only [beq_iff_eq, ← hflag]
        rfl

theorem Kept.kept_of_alias {records : List EntryRecord} {p q : Nat} {record : EntryRecord}
    (hkept : Kept records p) (hrecord : records[p]? = some record)
    (halias : record.aliasOf = some q) : q < p ∧ Kept records q :=
  ((kept_iff hrecord).mp hkept).2 q halias

namespace Resolution

variable {r next : Resolution} {records : List EntryRecord} {record : EntryRecord} {p : Nat}

/-- The ID of a kept record, which is the number of kept records before it; nothing for a skipped
one. -/
def idOf (records : List EntryRecord) (p : Nat) : Option Id :=
  if Kept records p then some (keptBefore records p) else none

/-- What holds when some records were resolved. -/
structure Reflects (r : Resolution) (records : List EntryRecord) : Prop where
  size_ids : r.ids.size = records.length
  size_entries : r.entries.size = keptBefore records records.length
  skipped_add : r.skipped + r.entries.size = records.length
  id_eq : ∀ p < records.length, r.ids[p]? = some (idOf records p)
  entry_eq : ∀ (p : Nat) (record : EntryRecord), records[p]? = some record → Kept records p →
    r.entries[keptBefore records p]? = some (record.entry (keptBefore records))
  kind : ∀ (p : Nat) (record : EntryRecord), records[p]? = some record → Kept records p →
    record.aliasOf = none → ∃ kind, record.kind = some kind ∧ kind ≠ .redirect

theorem reflects_nil : ({} : Resolution).Reflects [] where
  size_ids := rfl
  size_entries := rfl
  skipped_add := rfl
  id_eq p hp := absurd hp (Nat.not_lt_zero p)
  entry_eq p record hrecord := by cases hrecord
  kind p record hrecord := by cases hrecord

theorem idOf_concat_of_lt (record : EntryRecord) (hp : p < records.length) :
    idOf (records ++ [record]) p = idOf records p := by
  simp only [idOf, kept_concat_of_lt record hp, keptBefore_concat record (Nat.le_of_lt hp)]

/-- The IDs with that of the next record. -/
theorem Reflects.id_push (hr : r.Reflects records) (record : EntryRecord) {id : Option Id}
    (hid : id = idOf (records ++ [record]) records.length) :
    ∀ p < (records ++ [record]).length,
      (r.ids.push id)[p]? = some (idOf (records ++ [record]) p) := by
  intro p hp
  rw [List.length_append] at hp
  rcases Nat.lt_succ_iff_lt_or_eq.mp hp with hlt | rfl
  · rw [idOf_concat_of_lt record hlt, ← hr.id_eq p hlt]
    have hsize : p < r.ids.size := by rwa [hr.size_ids]
    rw [Array.getElem?_push_lt hsize, Array.getElem?_eq_getElem hsize]
  · rw [← hr.size_ids, Array.getElem?_push_size, hid, hr.size_ids]

/-- The entries of the earlier records stay what they are. -/
theorem Reflects.entry_old (hr : r.Reflects records) (record : EntryRecord) {old : EntryRecord}
    (hold : records[p]? = some old) (hkept : Kept (records ++ [record]) p) :
    keptBefore (records ++ [record]) p < r.entries.size ∧
      r.entries[keptBefore (records ++ [record]) p]? =
        some (old.entry (keptBefore (records ++ [record]))) := by
  have hp : p < records.length := (List.getElem?_eq_some_iff.mp hold).1
  rw [kept_concat_of_lt record hp] at hkept
  rw [keptBefore_concat record (Nat.le_of_lt hp)]
  refine ⟨?_, ?_⟩
  · rw [hr.size_entries]
    exact keptBefore_lt hkept hp
  · rw [hr.entry_eq p old hold hkept]
    refine congrArg some (EntryRecord.entry_congr fun q hq => ?_)
    have hqp := (hkept.kept_of_alias hold hq).1
    exact (keptBefore_concat record (Nat.le_of_lt (Nat.lt_trans hqp hp))).symm

theorem Reflects.kind_concat (hr : r.Reflects records)
    (hnew : Kept (records ++ [record]) records.length → record.aliasOf = none →
      ∃ kind, record.kind = some kind ∧ kind ≠ .redirect) :
    ∀ (p : Nat) (found : EntryRecord), (records ++ [record])[p]? = some found →
      Kept (records ++ [record]) p → found.aliasOf = none →
        ∃ kind, found.kind = some kind ∧ kind ≠ .redirect := by
  intro p found hfound hkept hplain
  rcases getElem?_concat_eq_some.mp hfound with hold | ⟨rfl, rfl⟩
  · have hp : p < records.length := (List.getElem?_eq_some_iff.mp hold).1
    exact hr.kind p found hold ((kept_concat_of_lt record hp).mp hkept) hplain
  · exact hnew hkept hplain

/-- The next record is skipped. -/
theorem Reflects.skip (hr : r.Reflects records)
    (hskip : ¬ Kept (records ++ [record]) records.length) :
    ({ r with ids := r.ids.push none, skipped := r.skipped + 1 } : Resolution).Reflects
      (records ++ [record]) where
  size_ids := by simp [hr.size_ids]
  size_entries := by
    rw [List.length_append, List.length_singleton, keptBefore_succ, if_neg hskip,
      keptBefore_concat record (Nat.le_refl _)]
    exact hr.size_entries
  skipped_add := by
    rw [List.length_append, List.length_singleton, ← hr.skipped_add]
    exact Nat.add_right_comm r.skipped 1 r.entries.size
  id_eq := hr.id_push record (if_neg hskip).symm
  entry_eq p found hfound hkept := by
    rcases getElem?_concat_eq_some.mp hfound with hold | ⟨rfl, rfl⟩
    · exact (hr.entry_old record hold hkept).2
    · exact absurd hkept hskip
  kind := hr.kind_concat fun hkept => absurd hkept hskip

/-- The next record is kept. -/
theorem Reflects.keep (hr : r.Reflects records)
    (hkept : Kept (records ++ [record]) records.length)
    (hkind : record.aliasOf = none → ∃ kind, record.kind = some kind ∧ kind ≠ .redirect) :
    ({ r with
        ids := r.ids.push (some r.entries.size)
        entries := r.entries.push (record.entry (keptBefore records)) } : Resolution).Reflects
      (records ++ [record]) where
  size_ids := by simp [hr.size_ids]
  size_entries := by
    rw [List.length_append, List.length_singleton, keptBefore_succ, if_pos hkept,
      keptBefore_concat record (Nat.le_refl _), Array.size_push, hr.size_entries]
  skipped_add := by
    rw [List.length_append, List.length_singleton, Array.size_push, ← hr.skipped_add]
    rfl
  id_eq := by
    refine hr.id_push record ?_
    rw [idOf, if_pos hkept, keptBefore_concat record (Nat.le_refl _), hr.size_entries]
  entry_eq p found hfound hfoundKept := by
    rcases getElem?_concat_eq_some.mp hfound with hold | ⟨rfl, rfl⟩
    · obtain ⟨hlt, hentry⟩ := hr.entry_old record hold hfoundKept
      rw [Array.getElem?_push_lt hlt, ← Array.getElem?_eq_getElem hlt, hentry]
    · rw [keptBefore_concat record (Nat.le_refl _), ← hr.size_entries, Array.getElem?_push_size]
      refine congrArg some (EntryRecord.entry_congr fun q hq => ?_)
      have hqp := (hkept.kept_of_alias hfound hq).1
      exact (keptBefore_concat record (Nat.le_of_lt hqp)).symm
  kind := hr.kind_concat fun _ => hkind

theorem Reflects.step (hr : r.Reflects records) (hstep : r.step record = .ok next) :
    next.Reflects (records ++ [record]) := by
  obtain ⟨entry, hresolve, hnext⟩ := except_bind_eq_ok.mp hstep
  rw [hr.size_ids] at hresolve
  have hlast : (records ++ [record])[records.length]? = some record := List.getElem?_concat_length
  have hkept := kept_iff hlast
  -- an alias of an earlier record finds its ID exactly if that record was kept
  have hfound : ∀ q < records.length, r.ids[q]?.bind id = idOf (records ++ [record]) q := by
    intro q hq
    rw [hr.id_eq q hq, idOf_concat_of_lt record hq]
    rfl
  cases EntryRecord.resolve_outcome hresolve with
  | unsupported hsupported =>
      cases hnext
      refine hr.skip fun h => ?_
      rw [(hkept.mp h).1] at hsupported
      cases hsupported
  | skippedTarget halias hlt hid =>
      cases hnext
      refine hr.skip fun h => ?_
      rw [hfound _ hlt, idOf, if_pos ((hkept.mp h).2 _ halias).2] at hid
      cases hid
  | @redirect target new hsupported halias hlt hid =>
      rw [hfound target hlt, idOf, Option.ite_none_right_eq_some] at hid
      obtain ⟨htarget, hnew⟩ := hid
      have hentry : record.complete (.aliasTo record.name new) =
          record.entry (keptBefore records) := by
        rw [EntryRecord.entry, halias, ← Option.some.inj hnew,
          keptBefore_concat record (Nat.le_of_lt hlt)]
      have hlastKept : Kept (records ++ [record]) records.length := by
        refine hkept.mpr ⟨hsupported, fun q hq => ?_⟩
        obtain rfl : target = q := Option.some.inj (halias.symm.trans hq)
        exact ⟨hlt, htarget⟩
      cases hnext
      rw [hentry]
      refine hr.keep hlastKept fun hplain => ?_
      rw [halias] at hplain
      cases hplain
  | @plain kind hsupported halias hkind hne =>
      have hentry : record.complete { name := record.name, url := record.url, kind } =
          record.entry (keptBefore records) := by
        rw [EntryRecord.entry, halias, hkind, Option.getD_some]
      have hlastKept : Kept (records ++ [record]) records.length := by
        refine hkept.mpr ⟨hsupported, fun q hq => ?_⟩
        rw [halias] at hq
        cases hq
      cases hnext
      rw [hentry]
      exact hr.keep hlastKept fun _ => ⟨kind, hkind, hne⟩

theorem Reflects.run {items : List EntryRecord} (hr : r.Reflects records)
    (hrun : items.foldlM Resolution.step r = .ok next) : next.Reflects (records ++ items) := by
  induction items generalizing r records with
  | nil =>
      cases hrun
      rwa [List.append_nil]
  | cons record items ih =>
      obtain ⟨mid, hstep, hrest⟩ := foldlM_cons_eq_ok.mp hrun
      rw [List.append_cons]
      exact ih (hr.step hstep) hrest

/-- Records that are resolved are reflected by their entries. -/
theorem reflects_of_resolveRecords (hresolve : resolveRecords records = .ok r) :
    r.Reflects records :=
  reflects_nil.run hresolve

end Resolution

/-! ## The entries may be registered -/

theorem Text.validateAll_eq_ok {texts : List String} :
    Text.validateAll texts = .ok () ↔ ∀ text ∈ texts, Text.validate text = .ok () := by
  induction texts with
  | nil => simp [validateAll, pure, Except.pure]
  | cons text texts ih =>
      have hcons : validateAll (text :: texts) = validate text >>= fun _ => validateAll texts := rfl
      rw [List.forall_mem_cons, ← ih, hcons, except_bind_eq_ok]
      exact ⟨fun ⟨(), hboth⟩ => hboth, fun hboth => ⟨(), hboth⟩⟩

/-- Each flag says what it was set from. -/
theorem Flags.marked (deprecated deleted : Bool) :
    let flags := if deprecated then Flags.none.setDeprecated else Flags.none
    let marked := if deleted then flags.setDeleted else flags
    marked.isDeprecated = deprecated ∧ marked.isDeleted = deleted := by
  cases deprecated <;> cases deleted <;> decide

namespace EntryRecord

variable {idOf : Nat → Id} {record : EntryRecord} {q : Nat}

theorem entry_of_alias (halias : record.aliasOf = some q) :
    record.entry idOf = record.complete (.aliasTo record.name (idOf q)) := by
  rw [entry, halias]

theorem entry_of_plain (hplain : record.aliasOf = none) {kind : Kind}
    (hkind : record.kind = some kind) :
    record.entry idOf = record.complete { name := record.name, url := record.url, kind } := by
  rw [entry, hplain, hkind, Option.getD_some]

/-- What the entry has from its record, alias or not. -/
theorem entry_fields (idOf : Nat → Id) (record : EntryRecord) :
    (record.entry idOf).name = record.name ∧
      (record.entry idOf).flags.isDeprecated = record.deprecated ∧
        (record.entry idOf).flags.isDeleted = record.deleted ∧
          (record.entry idOf).suffixLength = record.suffixLength ∧
            (record.entry idOf).keywords = record.keywords ∧
              (record.entry idOf).target = record.aliasOf.map idOf := by
  have hflags : ∀ entry : Entry, entry.flags = .none →
      (record.complete entry).flags.isDeprecated = record.deprecated ∧
        (record.complete entry).flags.isDeleted = record.deleted := by
    intro entry hnone
    rw [complete, hnone]
    exact Flags.marked record.deprecated record.deleted
  unfold entry
  cases record.aliasOf with
  | none =>
      obtain ⟨hdeprecated, hdeleted⟩ := hflags
        { name := record.name, url := record.url, kind := record.kind.getD default } rfl
      exact ⟨rfl, hdeprecated, hdeleted, rfl, rfl, rfl⟩
  | some target =>
      obtain ⟨hdeprecated, hdeleted⟩ := hflags (.aliasTo record.name (idOf target)) rfl
      exact ⟨rfl, hdeprecated, hdeleted, rfl, rfl, rfl⟩

theorem target_entry (idOf : Nat → Id) (record : EntryRecord) :
    (record.entry idOf).target = record.aliasOf.map idOf :=
  (record.entry_fields idOf).2.2.2.2.2

theorem isAlias_entry (idOf : Nat → Id) (record : EntryRecord) :
    (record.entry idOf).isAlias = record.aliasOf.isSome := by
  rw [Entry.isAlias, target_entry, Option.isSome_map]

/-- The texts of an entry are texts of its record, or empty. -/
theorem supported_entry (hsupported : record.isSupported = true) :
    Text.validateAll (Index.textsOf (record.entry idOf)) = .ok () := by
  have hrecord : Text.validateAll (record.name :: record.url :: record.keywords) = .ok () := by
    unfold isSupported at hsupported
    split at hsupported
    · assumption
    · cases hsupported
  rw [Text.validateAll_eq_ok, List.forall_mem_cons, List.forall_mem_cons] at hrecord
  obtain ⟨hname, hurl, hkeywords⟩ := hrecord
  rw [Text.validateAll_eq_ok, Index.textsOf, List.forall_mem_cons, List.forall_mem_cons]
  unfold entry
  cases record.aliasOf with
  | none => exact ⟨hname, hurl, hkeywords⟩
  | some target => exact ⟨hname, rfl, hkeywords⟩

end EntryRecord

namespace Resolution

variable {r : Resolution} {records : List EntryRecord}

/-- The entry of a kept record is at its ID. -/
theorem Reflects.getElem?_entries (hr : r.Reflects records) {p : Nat} {record : EntryRecord}
    (hrecord : records[p]? = some record) (hkept : Kept records p) :
    r.entries.toList[keptBefore records p]? = some (record.entry (keptBefore records)) := by
  rw [Array.getElem?_toList]
  exact hr.entry_eq p record hrecord hkept

/-- Every entry is that of a kept record. -/
theorem Reflects.exists_kept (hr : r.Reflects records) {id : Id} {entry : Entry}
    (hentry : r.entries.toList[id]? = some entry) :
    ∃ p record, records[p]? = some record ∧ Kept records p ∧ keptBefore records p = id ∧
      record.entry (keptBefore records) = entry := by
  have hid : id < keptBefore records records.length := by
    rw [← hr.size_entries, ← Array.length_toList]
    exact (List.getElem?_eq_some_iff.mp hentry).1
  obtain ⟨p, hp, hkept, rfl⟩ := exists_kept_of_lt hid
  have hrecord : records[p]? = some records[p] := List.getElem?_eq_getElem hp
  refine ⟨p, records[p], hrecord, hkept, rfl, ?_⟩
  rw [hr.getElem?_entries hrecord hkept] at hentry
  exact Option.some.inj hentry

theorem Reflects.admissible (hr : r.Reflects records) (id : Id) (entry : Entry)
    (hentry : r.entries.toList[id]? = some entry) : entry.Admissible id := by
  obtain ⟨p, record, hrecord, hkept, rfl, rfl⟩ := hr.exists_kept hentry
  refine
    { supported := record.supported_entry ((kept_iff hrecord).mp hkept).1
      kind_iff := ?_
      target_lt := ?_ }
  · rw [record.target_entry, Option.isSome_map]
    cases halias : record.aliasOf with
    | none =>
        obtain ⟨kind, hkind, hne⟩ := hr.kind p record hrecord hkept halias
        rw [record.entry_of_plain halias hkind]
        simpa [EntryRecord.complete] using hne
    | some q =>
        rw [record.entry_of_alias halias]
        simp [EntryRecord.complete, Entry.aliasTo]
  · intro target htarget
    rw [record.target_entry] at htarget
    obtain ⟨q, hq, rfl⟩ := Option.map_eq_some_iff.mp htarget
    obtain ⟨hlt, hqKept⟩ := hkept.kept_of_alias hrecord hq
    exact keptBefore_lt hqKept hlt

end Resolution

end PrefixSearch
