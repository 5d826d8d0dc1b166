import PrefixSearch.Proofs.StoredTree

/-!
# Search data is read back

The bytes of a frozen index that fits its file are taken for search data with the same widths,
prefix, results, case and type map, and every query finds in the bytes what it finds in the index.
Every index that operations lead to fits its file if it can be frozen at all.
-/

namespace PrefixSearch

open Bytes (Reader Source)

/-! ## The type map -/

theorem ResultTable.length_typeMap_le (t : ResultTable) : t.typeMap.length ≤ 255 := by
  have hfilter := List.length_filter_le
    (fun kind => kind ≠ .redirect && ((List.range t.size).map t.resolvedKind).contains kind)
    Kind.all
  rw [typeMap, List.length_map]
  exact Nat.le_trans hfilter (by decide)

section

variable {source : Source} {w : Widths}

theorem decodes_typeRow {row : TypeRow}
    (hlabel : row.label.utf8ByteSize < Bytes.capacity w.nameBytes) :
    Reader.Decodes source (readTypeRow w) (w.typeRowField row) row := by
  have htext : Reader.Decodes source (Reader.text w.nameBytes)
      (w.nameField (Text.utf8 row.label)) row.label :=
    Reader.decodes_text row.label (by rwa [length_utf8])
  have hkind : Kind.ofTag? (UInt8.ofNat row.kind.tag.toNat) = some row.kind := by
    rw [UInt8.ofNat_toNat, Kind.ofTag?_tag]
  have hclass : CssClass.ofCode? (UInt8.ofNat row.cssClass.code.toNat) = some row.cssClass := by
    rw [UInt8.ofNat_toNat, CssClass.ofCode?_code]
  rw [Widths.typeRowField, ← List.append_nil (w.nameField _)]
  refine (Reader.decodes_byte row.kind.tag).bind ((Reader.decodes_byte row.cssClass.code).bind ?_)
  refine htext.bind (Reader.Decodes.of_require hkind (Reader.Decodes.of_require hclass ?_))
  exact Reader.Decodes.pure row

theorem decodes_typeMap {rows : List TypeRow} (hcount : rows.length ≤ 255)
    (hlabels : ∀ row ∈ rows, row.label.utf8ByteSize < Bytes.capacity w.nameBytes) :
    Reader.Decodes source (readTypeMap w)
      (UInt8.ofNat rows.length :: rows.flatMap w.typeRowField) rows := by
  refine (Reader.decodes_count hcount).bind ?_
  exact Reader.decodes_replicate w.typeRowField rows fun row hrow =>
    decodes_typeRow (hlabels row hrow)

/-! ## The header -/

theorem Widths.ofSelector?_selector (w : Widths) :
    WidthClass.ofSelector? (WidthClass.selector w.name) = some w.name ∧
      WidthClass.ofSelector? (WidthClass.selector w.id) = some w.id ∧
        WidthClass.ofSelector? (WidthClass.selector w.offset) = some w.offset := by
  refine ⟨?_, ?_, ?_⟩
  · cases w.name <;> rfl
  · cases w.id <;> rfl
  · cases w.offset <;> rfl

theorem decodes_widths (w : Widths) :
    Reader.Decodes source readWidths
      [WidthClass.selector w.name, WidthClass.selector w.id, WidthClass.selector w.offset] w := by
  obtain ⟨hname, hid, hoffset⟩ := w.ofSelector?_selector
  have hbyte : ∀ byte : UInt8, byte = UInt8.ofNat byte.toNat := fun _ => UInt8.ofNat_toNat.symm
  rw [hbyte (WidthClass.selector w.name)] at hname
  rw [hbyte (WidthClass.selector w.id)] at hid
  rw [hbyte (WidthClass.selector w.offset)] at hoffset
  refine (Reader.decodes_byte (WidthClass.selector w.name)).bind ?_
  refine (Reader.decodes_byte (WidthClass.selector w.id)).bind ?_
  refine (Reader.decodes_byte (WidthClass.selector w.offset)).bind ?_
  refine Reader.Decodes.of_require hname (Reader.Decodes.of_require hid ?_)
  refine Reader.Decodes.of_require hoffset ?_
  exact Reader.Decodes.pure w

end

namespace Frozen

variable (frozen : Frozen)

/-- The header's flags. -/
def flags : UInt8 :=
  if frozen.config.caseInsensitive then caseFlag else 0

/-- What the file is taken for. -/
def reopened : SearchData :=
  { data := frozen.encode.toArray
    version := formatVersion
    widths := frozen.widths
    flags := frozen.flags
    resultCount := frozen.table.size
    resultsOffset := frozen.layout.resultsOffset
    recordsOffset := frozen.recordsOffset
    trieOffset := frozen.layout.trieOffset
    symbolPrefix := frozen.config.symbolPrefix
    typeMap := frozen.typeMap }

theorem caseInsensitive_reopened :
    frozen.reopened.caseInsensitive = frozen.config.caseInsensitive := by
  show (frozen.flags &&& caseFlag != 0) = _
  unfold flags
  cases frozen.config.caseInsensitive with
  | false => decide
  | true => decide

theorem size_reopened : frozen.reopened.size = frozen.layout.totalSize := by
  rw [← length_encode]
  exact List.size_toArray

/-- Every section is where the layout says. -/
theorem holds_sections :
    frozen.reopened.source.Holds 0 frozen.encodeHeader ∧
      frozen.reopened.source.Holds frozen.layout.typeMapOffset frozen.encodeTypeMap ∧
        frozen.reopened.source.Holds frozen.layout.resultsOffset frozen.encodeResults ∧
          frozen.reopened.source.Holds frozen.layout.trieOffset
            (frozen.trie.encode frozen.widths frozen.layout.trieOffset) := by
  have hall : frozen.reopened.source.Holds 0 frozen.encode := Source.holds_ofArray frozen.encode
  rwa [encode, Source.holds_append, Source.holds_append, Source.holds_append, Nat.zero_add,
    length_encodeHeader, typeMapOffset_add, resultsOffset_add] at hall

theorem encodeHeader_eq :
    frozen.encodeHeader =
      signature ++ ([formatVersion] ++
        ([WidthClass.selector frozen.widths.name, WidthClass.selector frozen.widths.id,
          WidthClass.selector frozen.widths.offset] ++
          ([frozen.flags] ++ (Bytes.uint 4 frozen.table.size ++
            (Bytes.uint 4 frozen.layout.typeMapOffset ++
              (Bytes.uint 4 frozen.layout.resultsOffset ++ (Bytes.uint 4 frozen.layout.trieOffset ++
                frozen.widths.nameField (Text.utf8 frozen.config.symbolPrefix)))))))) := by
  simp only [encodeHeader, List.append_assoc]
  rfl

namespace Fits

variable {frozen : Frozen}

theorem roomy (hfits : frozen.Fits) : frozen.reopened.Roomy where
  results := hfits.results
  file := by
    rw [size_reopened]
    exact hfits.file

/-- The numbers of the header have room in four bytes each. -/
theorem lt_capacity_four (hfits : frozen.Fits) :
    frozen.table.size < Bytes.capacity 4 ∧ frozen.layout.trieOffset < Bytes.capacity 4 := by
  obtain ⟨-, -, hroot⟩ := frozen.sections_in_order
  have hcount := hfits.roomy.lt_capacity (Nat.le_refl frozen.table.size)
  exact ⟨Nat.lt_of_lt_of_le hcount frozen.widths.capacity_idBytes_le,
    Nat.lt_of_lt_of_le (Nat.lt_of_lt_of_le hroot hfits.file) frozen.widths.capacity_offsetBytes_le⟩

theorem readPrefix_eq (hfits : frozen.Fits)
    (hholds : frozen.reopened.source.Holds 24
      (frozen.widths.nameField (Text.utf8 frozen.config.symbolPrefix))) :
    Reader.text frozen.widths.nameBytes frozen.reopened.source 24 =
      (.ok frozen.config.symbolPrefix, frozen.layout.typeMapOffset) := by
  have hlength : (Text.utf8 frozen.config.symbolPrefix).length <
      Bytes.capacity frozen.widths.nameBytes := by
    rw [length_utf8]
    exact hfits.symbolPrefix
  have hposition : 24 + (frozen.widths.nameField (Text.utf8 frozen.config.symbolPrefix)).length =
      frozen.layout.typeMapOffset := by
    rw [Widths.length_nameField, length_utf8]
    rfl
  rw [← hposition]
  exact Reader.decodes_text frozen.config.symbolPrefix hlength 24 hholds

theorem readTypeMap_eq (hfits : frozen.Fits) :
    readTypeMap frozen.widths frozen.reopened.source frozen.layout.typeMapOffset =
      (.ok frozen.typeMap, frozen.layout.resultsOffset) := by
  obtain ⟨-, htypeMap, -⟩ := frozen.holds_sections
  rw [← typeMapOffset_add]
  exact decodes_typeMap frozen.table.length_typeMap_le hfits.typeLabels _ htypeMap

/-- The header is read back, and the sections are in order. -/
theorem readHeader_eq (hfits : frozen.Fits) :
    SearchData.readHeader frozen.encode.toArray formatVersion frozen.reopened.source 4 =
      (.ok frozen.reopened, frozen.layout.resultsOffset) := by
  obtain ⟨hcount, htrie⟩ := hfits.lt_capacity_four
  obtain ⟨hresults, hrecords, hroot⟩ := frozen.sections_in_order
  have hoffsets : frozen.layout.resultsOffset +
      (frozen.table.size + 1) * frozen.widths.offsetBytes ≤ frozen.layout.trieOffset :=
    frozen.recordsOffset_le
  rw [← length_encode, ← List.size_toArray] at hroot
  obtain ⟨hheader, -, -⟩ := frozen.holds_sections
  rw [encodeHeader_eq] at hheader
  simp only [Source.holds_append] at hheader
  obtain ⟨-, -, hwidths, hflags, hsize, hmap, hrows, htree, hsymbol⟩ := hheader
  -- each field of the fixed part ends where the next one begins
  have hreadWidths : readWidths frozen.reopened.source 4 = (.ok frozen.widths, 7) :=
    decodes_widths frozen.widths 4 hwidths
  have hreadFlags : Reader.uint 1 frozen.reopened.source 7 = (.ok frozen.flags.toNat, 8) :=
    Reader.decodes_byte frozen.flags 7 hflags
  have hreadSize : Reader.uint 4 frozen.reopened.source 8 = (.ok frozen.table.size, 12) :=
    Reader.decodes_uint hcount 8 hsize
  have hreadMap : Reader.uint 4 frozen.reopened.source 12 =
      (.ok frozen.layout.typeMapOffset, 16) :=
    Reader.decodes_uint (by omega) 12 hmap
  have hreadRows : Reader.uint 4 frozen.reopened.source 16 =
      (.ok frozen.layout.resultsOffset, 20) :=
    Reader.decodes_uint (by omega) 16 hrows
  have hreadTree : Reader.uint 4 frozen.reopened.source 20 = (.ok frozen.layout.trieOffset, 24) :=
    Reader.decodes_uint htrie 20 htree
  unfold SearchData.readHeader
  rw [Reader.bind_of_ok hreadWidths, Reader.bind_of_ok hreadFlags, Reader.bind_of_ok hreadSize,
    Reader.bind_of_ok hreadMap, Reader.bind_of_ok hreadRows, Reader.bind_of_ok hreadTree,
    Reader.bind_of_ok (hfits.readPrefix_eq hsymbol), Reader.bind_of_ok rfl,
    Reader.bind_of_ok (Reader.check_of hfits.results),
    Reader.bind_of_ok (Reader.check_of ⟨Nat.le_refl _, hresults, hrecords, hroot⟩),
    Reader.bind_of_ok (Reader.check_of hoffsets)]
  rw [UInt8.ofNat_toNat]
  exact Reader.bind_of_ok hfits.readTypeMap_eq

theorem parse_eq (hfits : frozen.Fits) :
    SearchData.parse frozen.encode.toArray = .ok frozen.reopened := by
  obtain ⟨hheader, -, -⟩ := frozen.holds_sections
  rw [encodeHeader_eq, Source.holds_append] at hheader
  have hsignature : (Source.ofArray frozen.encode.toArray).slice? 0 3 = some signature := hheader.1
  have hversion : frozen.encode.toArray[3]? = some formatVersion := by
    rw [List.getElem?_toArray, encode, encodeHeader_eq]
    rfl
  have hread : (SearchData.readHeader frozen.encode.toArray formatVersion).run
      (.ofArray frozen.encode.toArray) 4 = .ok frozen.reopened :=
    congrArg Prod.fst hfits.readHeader_eq
  unfold SearchData.parse
  simp [hversion, hsignature, hread, Except.mapError]

/-- A query finds in the bytes what it finds in the index. -/
theorem lookup_eq (hfits : frozen.Fits) (query : String) :
    frozen.reopened.lookup query = .ok (frozen.toIndex.lookup query) := by
  obtain ⟨-, -, -, htrie⟩ := frozen.holds_sections
  rw [SearchData.lookup, caseInsensitive_reopened]
  exact hfits.roomy.lookupBytes_eq htrie hfits.wellFormed hfits.nodes _

end Fits

end Frozen

/-- An index that was built by any operations and could be frozen is read back from its bytes, and
the walk over the bytes finds what the walk over the tree finds, whatever is asked. -/
theorem SearchData.parse_encode_finalize [Search] {config : Config} {index : Index} {frozen : Frozen}
    (hreach : Index.Reachable config index) (hfinal : index.finalize = .ok frozen) :
    ∃ d, SearchData.parse frozen.encode.toArray = .ok d ∧
      d.widths = frozen.widths ∧ d.symbolPrefix = frozen.config.symbolPrefix ∧
        d.resultCount = frozen.table.size ∧
          d.caseInsensitive = frozen.config.caseInsensitive ∧ d.typeMap = frozen.typeMap ∧
            ∀ query, d.lookup query = .ok (frozen.toIndex.lookup query) := by
  have hfits := hreach.sound.fits hfinal
  exact ⟨frozen.reopened, hfits.parse_eq, rfl, rfl, rfl, frozen.caseInsensitive_reopened, rfl,
    hfits.lookup_eq⟩

/-- A page with an alias, and a text of its own whose first byte only is that of the others. -/
def overviewRun (config : Config) : Except IndexError Index := do
  let (page, index) ← (Index.empty config).add
    { name := "Überblick", url := "overview.html", kind := .page }
  let (_, index) ← index.addAlias "Übersicht" page
  index.insert "Éclair" page false

theorem SearchData.parse_encode_finalize_overviewRun :
    let config : Config := { symbolPrefix := "doc/" }
    ∃ index frozen, overviewRun config = .ok index ∧ Index.Reachable config index ∧
      index.finalize = .ok frozen ∧
      ∃ d, SearchData.parse frozen.encode.toArray = .ok d ∧ d.symbolPrefix = "doc/" ∧
        d.resultCount = 2 ∧ d.lookup "über" = .ok { completions := [0, 1] } := by
  intro config
  have hfound : ((overviewRun config).toOption.bind (·.finalize.toOption)).map
      (fun frozen => (frozen.config.symbolPrefix, frozen.table.size, frozen.lookup "über")) =
        some ("doc/", 2, { completions := [0, 1] }) := by
    decide +kernel
  cases hrun : overviewRun config with
  | error fault =>
      rw [hrun] at hfound
      cases hfound
  | ok index =>
      cases hfinal : index.finalize with
      | error fault =>
          rw [hrun, Except.toOption, Option.bind_some, hfinal] at hfound
          cases hfound
      | ok frozen =>
          rw [hrun, Except.toOption, Option.bind_some, hfinal] at hfound
          obtain ⟨hsymbol, hcount, hlookup⟩ : frozen.config.symbolPrefix = "doc/" ∧
              frozen.table.size = 2 ∧ frozen.lookup "über" = { completions := [0, 1] } := by
            simpa [Except.toOption] using hfound
          obtain ⟨⟨page, first⟩, hadd, hrest⟩ := except_bind_eq_ok.mp hrun
          obtain ⟨⟨again, second⟩, halias, hinsert⟩ := except_bind_eq_ok.mp hrest
          have hreach : Index.Reachable config index :=
            .insert (.addAlias (.add .empty hadd) halias) hinsert
          obtain ⟨d, hparse, -, hsymbolRead, hcountRead, -, -, hread⟩ :=
            SearchData.parse_encode_finalize hreach hfinal
          exact ⟨index, frozen, rfl, hreach, hfinal, d, hparse, hsymbolRead.trans hsymbol,
            hcountRead.trans hcount, (hread "über").trans (congrArg _ hlookup)⟩

end PrefixSearch
