import PrefixSearch.Proofs.AliasForest
import PrefixSearch.Proofs.Reopening

/-!
# Stored results are read back

A record is read from between its own offset and the next one, and it says what its entry says.
Following the records of aliases through the bytes therefore takes the steps that the table takes.
As every chain of aliases is shorter than the table, the bound on these steps never cuts one off,
and the type map has a row for the kind that is found at the end.
-/

namespace PrefixSearch

open Bytes (Reader Source)

/-! ## The table's own answer -/

/-- What is stored of an entry. -/
def Entry.record (entry : Entry) : Record :=
  { flags := entry.flags
    kind := entry.kind
    target := entry.target
    suffixLength := entry.suffixLength
    name := entry.name
    url := entry.url }

namespace ResultTable

variable {t : ResultTable} {id : Id}

/-- The result with the ID: name, flags and suffix length are its own, the rest is that of the entry
it resolves to. -/
def result (t : ResultTable) (id : Id) : SearchResult :=
  let entry := t.get id
  let resolved := t.get (t.resolve id)
  { id
    name := entry.name
    url := resolved.url
    kind := resolved.kind
    cssClass := resolved.kind.cssClass
    label := resolved.kind.label
    deprecated := entry.flags.isDeprecated
    deleted := entry.flags.isDeleted
    suffixLength := entry.suffixLength
    target := entry.target }

theorem getElem?_entries (t : ResultTable) (id : Id) : t.entries[id]? = t.get? id := by
  simp [entries, get?]

theorem getElem?_entries_of_lt (hid : id < t.size) : t.entries[id]? = some (t.get id) := by
  obtain ⟨row, hrow⟩ := exists_row hid
  rw [getElem?_entries, get?, hrow, get_of_rows hrow, Option.map_some]

/-- There is a row for the kind of every entry that no longer leads on. -/
theorem find?_typeMap (hid : id < t.size) (hkind : t.resolvedKind id ≠ .redirect) :
    t.typeMap.find? (·.kind = t.resolvedKind id) = some (t.resolvedKind id).typeRow := by
  have hall : t.resolvedKind id ∈ Kind.all := by
    cases t.resolvedKind id <;> decide
  have hused : t.resolvedKind id ∈ (List.range t.size).map t.resolvedKind :=
    List.mem_map_of_mem (List.mem_range.mpr hid)
  have hrow : (t.resolvedKind id).typeRow ∈ t.typeMap := by
    refine List.mem_map_of_mem (List.mem_filter.mpr ⟨hall, ?_⟩)
    rw [Bool.and_eq_true, decide_eq_true_eq, List.contains_iff_mem]
    exact ⟨hkind, hused⟩
  cases hfound : t.typeMap.find? (·.kind = t.resolvedKind id) with
  | none =>
      have hnone := List.find?_eq_none.mp hfound _ hrow
      exact absurd (decide_eq_true rfl) hnone
  | some row =>
      -- every row of the map is the row of its kind
      obtain ⟨kind, -, rfl⟩ := List.mem_map.mp (List.mem_of_find?_eq_some hfound)
      have hsame := List.find?_some hfound
      rw [decide_eq_true_eq] at hsame
      exact congrArg (fun kind => some kind.typeRow) hsame

end ResultTable

/-! ## Reading a record -/

namespace SearchData

variable {d : SearchData} {source : Source}

/-- An alias refers to a result, and any other entry to an ID that is none. -/
theorem Roomy.decodes_target (hd : d.Roomy) {target : Option Id}
    (htarget : ∀ id, target = some id → id < d.resultCount) :
    target.getD d.widths.id.sentinel < Bytes.capacity d.widths.idBytes ∧
      (if target.getD d.widths.id.sentinel = d.widths.id.sentinel then none
        else some (target.getD d.widths.id.sentinel)) = target := by
  cases target with
  | none => exact ⟨WidthClass.le_maxValue_iff.mp (Nat.le_refl _), if_pos rfl⟩
  | some id =>
      have hid := htarget id rfl
      exact ⟨hd.lt_capacity (Nat.le_of_lt hid), if_neg (Nat.ne_of_lt (Nat.lt_trans hid hd.results))⟩

theorem Roomy.decodes_record (hd : d.Roomy) {entry : Entry} (id : Id)
    (hlength : max entry.nameLength entry.url.utf8ByteSize < Bytes.capacity d.widths.nameBytes)
    (hkind : entry.kind = .redirect ↔ entry.target.isSome = true)
    (htarget : ∀ target, entry.target = some target → target < d.resultCount) :
    Reader.Decodes source (d.readRecord id) (d.widths.recordField entry) entry.record := by
  obtain ⟨hreference, hsame⟩ := hd.decodes_target htarget
  obtain ⟨hname, hurl⟩ := Nat.max_lt.mp hlength
  have htag : Kind.ofTag? (UInt8.ofNat entry.kind.tag.toNat) = some entry.kind := by
    rw [UInt8.ofNat_toNat, Kind.ofTag?_tag]
  have hrecord : ({
      flags := ⟨UInt8.ofNat entry.flags.bits.toNat⟩
      kind := entry.kind
      target := if entry.target.getD d.widths.id.sentinel = d.widths.id.sentinel then none
        else some (entry.target.getD d.widths.id.sentinel)
      suffixLength := UInt8.ofNat entry.suffixLength.toNat
      name := entry.name
      url := entry.url } : Record) = entry.record := by
    rw [hsame, UInt8.ofNat_toNat, UInt8.ofNat_toNat]
    rfl
  rw [Widths.recordField, ← List.append_nil (d.widths.nameField (Text.utf8 entry.url)), ← hrecord]
  refine (Reader.decodes_byte entry.flags.bits).bind ((Reader.decodes_byte entry.kind.tag).bind ?_)
  refine Reader.Decodes.of_require htag ((Reader.decodes_uint hreference).bind ?_)
  refine (Reader.decodes_byte entry.suffixLength).bind ?_
  refine (Reader.decodes_text entry.name (by rwa [length_utf8])).bind ?_
  refine (Reader.decodes_text entry.url (by rwa [length_utf8])).bind ?_
  refine Reader.Decodes.of_check ?_ (Reader.Decodes.pure _)
  rw [hsame]
  exact propext hkind

/-- A record is read from between its offset and the next one. -/
theorem record_of_bounds {id : Id} {start stop : Nat} (hid : id < d.resultCount)
    (hstart : d.source.uint? (d.resultsOffset + id * d.widths.offsetBytes) d.widths.offsetBytes =
      some start)
    (hstop : d.source.uint? (d.resultsOffset + (id + 1) * d.widths.offsetBytes)
      d.widths.offsetBytes = some stop)
    (hbounds : d.recordsOffset ≤ start ∧ start ≤ stop ∧ stop ≤ d.trieOffset) :
    d.record id = (d.readRecord id).run { d.source with stop } start := by
  have hordered : ¬ (start < d.recordsOffset ∨ stop < start ∨ d.trieOffset < stop) := by omega
  rw [Nat.succ_mul, ← Nat.add_assoc] at hstop
  unfold record
  rw [if_neg (Nat.not_le.mpr hid)]
  simp only [hstart, hstop, if_neg hordered]

end SearchData

/-! ## Finding a record -/

namespace Frozen

namespace Fits

variable {frozen : Frozen} {id last : Id} {steps : Nat}

/-- The offset of each record, and the end of the last one, are read back. -/
theorem uint?_recordStart (hfits : frozen.Fits) (hid : id ≤ frozen.table.size) :
    frozen.reopened.source.uint?
        (frozen.layout.resultsOffset + id * frozen.widths.offsetBytes) frozen.widths.offsetBytes =
      some (frozen.recordStart id) := by
  obtain ⟨-, -, hresults, -⟩ := frozen.holds_sections
  rw [encodeResults, Source.holds_append] at hresults
  -- the offsets before it have one length each
  have hlength : ((frozen.layout.recordOffsets.take id).flatMap
      frozen.widths.offsetField).length = id * frozen.widths.offsetBytes := by
    have hoffset := List.getElem?_eq_some_iff.mp (frozen.recordOffsets_eq hid)
    obtain ⟨hlt, -⟩ := hoffset
    rw [Widths.length_flatMap_of_eq frozen.widths.length_offsetField, List.length_take,
      Nat.min_eq_left (Nat.le_of_lt hlt), Nat.mul_comm]
  have hholds := hresults.1.flatMap (frozen.recordOffsets_eq hid)
  rw [hlength] at hholds
  refine hholds.uint?_eq ?_
  obtain ⟨-, -, hroot⟩ := frozen.sections_in_order
  have hstart := (frozen.recordStart_bounds id).2
  have hfile := hfits.file
  show frozen.recordStart id < Bytes.capacity frozen.widths.offsetBytes
  omega

theorem holds_record {entry : Entry} (hentry : frozen.table.entries[id]? = some entry) :
    frozen.reopened.source.Holds (frozen.recordStart id) (frozen.widths.recordField entry) := by
  obtain ⟨-, -, hresults, -⟩ := frozen.holds_sections
  rw [encodeResults, Source.holds_append, length_recordOffsets] at hresults
  have hholds := hresults.2.flatMap hentry
  rwa [add_length_flatMap frozen.widths.length_recordField] at hholds

/-- The record of a result says what its entry says. -/
theorem record_eq (hfits : frozen.Fits) (hforest : frozen.table.AliasForest)
    (hid : id < frozen.table.size) :
    frozen.reopened.record id = .ok (frozen.table.get id).record := by
  obtain ⟨row, hrow⟩ := ResultTable.exists_row hid
  have hentry := ResultTable.getElem?_entries_of_lt hid
  have hget := ResultTable.get_of_rows hrow
  have hlength := hfits.entries _ (List.mem_of_getElem? hentry)
  rw [hget] at hentry hlength ⊢
  have hread : Reader.Decodes { frozen.reopened.source with stop := frozen.recordStart (id + 1) }
      (frozen.reopened.readRecord id) (frozen.widths.recordField row.entry) row.entry.record :=
    hfits.roomy.decodes_record id hlength (hforest.kind_iff id row hrow)
      (hforest.target_lt id row hrow)
  -- nothing from the next record on may be read, and the record ends exactly there
  have hbehind := frozen.recordStart_succ hentry
  have hholds : { frozen.reopened.source with stop := frozen.recordStart (id + 1) }.Holds
      (frozen.recordStart id) (frozen.widths.recordField row.entry) := by
    refine (holds_record hentry).closeOff (Nat.le_of_eq ?_)
    rw [Widths.length_recordField, hbehind]
  have hfirst := frozen.recordStart_bounds id
  have hnext := frozen.recordStart_bounds (id + 1)
  have hrecord := SearchData.record_of_bounds hid
    (hfits.uint?_recordStart (Nat.le_of_lt hid)) (hfits.uint?_recordStart hid)
    ⟨hfirst.1, by omega, hnext.2⟩
  rw [hrecord]
  exact congrArg Prod.fst (hread _ hholds)

/-- Following records goes as far as the chain of aliases. -/
theorem target_of_chain (hfits : frozen.Fits) (hforest : frozen.table.AliasForest) (start : Id)
    (hchain : frozen.table.Chain steps id last) (hlast : frozen.table.IsEnd last)
    (hid : id < frozen.table.size) {hops : Nat} (hhops : steps ≤ hops) :
    frozen.reopened.target start hops (frozen.table.get id).record =
      .ok (frozen.table.get last).record := by
  -- the chain of the table decides where to stop, the hops only have to last
  induction hchain generalizing hops with
  | here id =>
      have hkind := hforest.kind_of_isEnd hid hlast
      unfold SearchData.target
      split
      · next hredirect _ => exact absurd hredirect hkind
      · rfl
  | @along steps id target last hnext _ ih =>
      have htarget := hforest.next?_lt id target hnext
      obtain ⟨hkind, hentry⟩ : (frozen.table.get id).kind = .redirect ∧
          (frozen.table.get id).target = some target := by
        rwa [ResultTable.next?, Option.ite_none_right_eq_some] at hnext
      cases hops with
      | zero => exact absurd hhops (Nat.not_succ_le_zero _)
      | succ hops =>
          have hstep : frozen.reopened.target start (hops + 1) (frozen.table.get id).record =
              frozen.reopened.record target >>= frozen.reopened.target start hops := by
            rw [SearchData.target]
            simp only [Entry.record, hkind, hentry]
          rw [hstep, hfits.record_eq hforest htarget]
          exact ih hlast htarget (Nat.le_of_succ_le_succ hhops)

/-- A result that is read back is the result of the table. -/
theorem result_eq (hfits : frozen.Fits) (hforest : frozen.table.AliasForest)
    (hid : id < frozen.table.size) :
    frozen.reopened.result id = .ok (frozen.table.result id) := by
  obtain ⟨steps, hsteps, hchain, hlast⟩ := hforest.chain_resolve hid
  have hkind := hforest.kind_of_isEnd (hforest.resolve_lt hid) hlast
  have htarget := hfits.target_of_chain hforest id hchain hlast hid (Nat.le_of_lt hsteps)
  have hrow : frozen.reopened.typeMap.find?
      (·.kind = (frozen.table.get (frozen.table.resolve id)).record.kind) =
        some (frozen.table.resolvedKind id).typeRow :=
    ResultTable.find?_typeMap hid hkind
  refine except_bind_eq_ok.mpr ⟨_, hfits.record_eq hforest hid, ?_⟩
  refine except_bind_eq_ok.mpr ⟨_, htarget, ?_⟩
  rw [hrow]
  rfl

end Fits

end Frozen

end PrefixSearch
