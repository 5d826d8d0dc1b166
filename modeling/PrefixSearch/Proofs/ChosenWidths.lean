import Mathlib.Order.Bounds.Defs
import PrefixSearch.Proofs.MadeIndexes
import PrefixSearch.Proofs.WrittenNumbers

/-!
# Frozen as narrow as possible

Whether an index can be frozen, and with which widths, depends on the longest text, the number of results,
the largest number of children and the size of the file.  Putting the sets into rank order changes none of
these.  Every index that can be made is refused exactly if one of them is too large, and otherwise gets the
narrowest widths that are enough, in which no number of its file is cut off.
-/

namespace PrefixSearch

open WidthClass (Narrowest)

/-! ## The maxima -/

theorem foldl_max_mem (values : List Nat) (start : Nat) :
    values.foldl max start = start ∨ values.foldl max start ∈ values := by
  induction values generalizing start with
  | nil => exact Or.inl rfl
  | cons head values ih =>
      rw [List.foldl_cons]
      rcases ih (max start head) with heq | hmem
      · rw [heq]
        rcases Nat.le_total start head with hle | hle
        · rw [Nat.max_eq_right hle]
          exact Or.inr List.mem_cons_self
        · exact Or.inl (Nat.max_eq_left hle)
      · exact Or.inr (List.mem_cons_of_mem head hmem)

theorem maximum_mem {values : List Nat} (hne : values ≠ []) : maximum values ∈ values := by
  rcases foldl_max_mem values 0 with hzero | hmem
  · obtain ⟨head, rest, rfl⟩ := List.exists_cons_of_ne_nil hne
    have hle : head ≤ maximum (head :: rest) := le_maximum List.mem_cons_self
    rw [maximum, hzero, Nat.le_zero] at hle
    rw [maximum, hzero, hle]
    exact List.mem_cons_self
  · exact hmem

namespace Index

variable {config : Config} {index : Index} {frozen : Frozen}

/-- A length that is stored in the file: of a name, a URL, the label of a node or of a kind, or the
symbol prefix. -/
inductive StoresLength (index : Index) : Nat → Prop
  | name {entry : Entry} (hentry : entry ∈ index.table.entries) :
      StoresLength index entry.name.utf8ByteSize
  | url {entry : Entry} (hentry : entry ∈ index.table.entries) :
      StoresLength index entry.url.utf8ByteSize
  | label {v : Visit} (hv : v ∈ index.trie.visits) : StoresLength index v.label.length
  | typeLabel {row : TypeRow} (hrow : row ∈ index.table.typeMap) :
      StoresLength index row.label.utf8ByteSize
  | symbolPrefix : StoresLength index index.config.symbolPrefix.utf8ByteSize

theorem maxNameLength_isGreatest (index : Index) :
    IsGreatest {length | index.StoresLength length} index.stats.maxNameLength := by
  constructor
  · have hmem : index.stats.maxNameLength ∈ _ := maximum_mem (by simp)
    simp only [List.mem_append, List.mem_map, List.mem_singleton] at hmem
    rcases hmem with ((⟨entry, hentry, heq⟩ | ⟨v, hv, heq⟩) | ⟨row, hrow, heq⟩) | heq
    · rw [← heq]
      rcases Nat.le_total entry.nameLength entry.url.utf8ByteSize with hle | hle
      · rw [Nat.max_eq_right hle]
        exact .url hentry
      · rw [Nat.max_eq_left hle]
        exact .name hentry
    · exact heq ▸ .label hv
    · exact heq ▸ .typeLabel hrow
    · exact heq ▸ .symbolPrefix
  · have hbound := maximum_le_iff.mp (Nat.le_refl index.stats.maxNameLength)
    simp only [List.forall_mem_append, List.forall_mem_map, List.forall_mem_singleton] at hbound
    obtain ⟨⟨⟨hentries, hlabels⟩, htypeLabels⟩, hsymbol⟩ := hbound
    intro length hlength
    cases hlength with
    | name hentry => exact Nat.le_trans (Nat.le_max_left _ _) (hentries _ hentry)
    | url hentry => exact Nat.le_trans (Nat.le_max_right _ _) (hentries _ hentry)
    | label hv => exact hlabels _ hv
    | typeLabel hrow => exact htypeLabels _ hrow
    | symbolPrefix => exact hsymbol

theorem maxChildCount_isGreatest (index : Index) :
    IsGreatest {count | ∃ v ∈ index.trie.visits, v.children = count} index.stats.maxChildCount := by
  constructor
  · exact List.mem_map.mp (maximum_mem (by simp [Trie.visits]))
  · rintro count ⟨v, hv, rfl⟩
    exact le_maximum (List.mem_map_of_mem hv)

/-! ## Rank order takes no room -/

theorem stats_sorted (index : Index) : index.sorted.stats = index.stats := by
  have hvisits : index.sorted.trie.visits = index.trie.visits.map fun v =>
      { v with hits := v.hits.sort index.table } := Trie.visits_mapHits _ _
  have hsize : index.sorted.trie.size = index.trie.size := Trie.size_mapHits _ _
  simp only [stats, hvisits, hsize, List.map_map]
  rfl

theorem layout_sorted (index : Index) (w : Widths) : index.sorted.layout w = index.layout w := by
  have hvisits : index.sorted.trie.visits = index.trie.visits.map fun v =>
      { v with hits := v.hits.sort index.table } := Trie.visits_mapHits _ _
  have hnode : ∀ v : Visit, w.nodeSize v.label (v.hits.sort index.table) v.children =
      w.nodeSize v.label v.hits v.children := fun v => by
    simp only [Widths.nodeSize, Widths.idsSize, Hits.sort, (Ranked.sort_perm _ _).length_eq]
  simp only [layout, hvisits, List.map_map, Function.comp_def, hnode]
  rfl

/-- The size of the file with the given widths. -/
def fileSize (index : Index) (w : Widths) : Nat :=
  (index.layout w).totalSize

theorem finalize_eq_map (index : Index) :
    index.finalize = (index.config.chooseWidths index.stats index.fileSize).map fun widths =>
      { index.sorted with widths } := by
  have hsize : (fun w => (index.sorted.layout w).totalSize) = index.fileSize :=
    funext fun w => congrArg Layout.totalSize (index.layout_sorted w)
  rw [finalize_eq, stats_sorted, hsize]

theorem finalize_eq_ok_iff :
    index.finalize = .ok frozen ↔
      frozen.toIndex = index.sorted ∧ index.config.Chosen index.stats index.fileSize frozen.widths := by
  rw [finalize_eq_map, ← Config.chooseWidths_eq_ok_iff]
  cases index.config.chooseWidths index.stats index.fileSize with
  | error fault => simp [Except.map]
  | ok w =>
      obtain ⟨frozenIndex, widths⟩ := frozen
      simp only [Except.map, Except.ok.injEq, Frozen.mk.injEq, eq_comm]

theorem exceeds_of_finalize {fault : CapacityExceeded} (hfinal : index.finalize = .error fault) :
    index.config.Exceeds index.stats index.fileSize fault := by
  rw [finalize_eq_map] at hfinal
  cases hchoice : index.config.chooseWidths index.stats index.fileSize with
  | error found =>
      rw [hchoice] at hfinal
      cases hfinal
      exact Config.exceeds_of_chooseWidths hchoice
  | ok w =>
      rw [hchoice] at hfinal
      cases hfinal

/-! ## All indexes that can be made -/

/-- The longest text is `maxNameLength` bytes long and no node has more than `maxChildCount` children.
The index is frozen if and only if these, the number of results and the size of the file with some offsets
that are wide enough are within the limits of the format, and else it is said what is not.  A frozen index
has the narrowest widths that are enough, none of its IDs is the one that means "no alias", the file is as
long as the offsets were chosen for, and every number that is written to it has room. -/
theorem Made.frozen_narrowest [Search] (hmade : Made config index) :
    IsGreatest {length | index.StoresLength length} index.stats.maxNameLength ∧
    IsGreatest {count | ∃ v ∈ index.trie.visits, v.children = count} index.stats.maxChildCount ∧
    ((∃ frozen, index.finalize = .ok frozen) ↔
      index.stats.maxChildCount ≤ 255 ∧ index.stats.maxNameLength ≤ 65535 ∧
        index.table.size + 1 ≤ 2 ^ 32 - 1 ∧
        ∃ w : Widths,
          Narrowest index.config.minNameWidth
            (fun v => index.stats.maxNameLength ≤ 2 ^ WidthClass.bits v - 1) w.name ∧
          Narrowest index.config.minIdWidth
            (fun v => index.table.size + 1 ≤ 2 ^ WidthClass.bits v - 1) w.id ∧
          WidthClass.bytes index.config.minOffsetWidth ≤ WidthClass.bytes w.offset ∧
          index.fileSize w - 1 ≤ 2 ^ WidthClass.bits w.offset - 1) ∧
    (∀ fault, index.finalize = .error fault →
      index.config.Exceeds index.stats index.fileSize fault ∧ fault.max < fault.value) ∧
    ∀ frozen, index.finalize = .ok frozen →
      Narrowest index.config.minNameWidth
        (fun v => index.stats.maxNameLength ≤ 2 ^ WidthClass.bits v - 1) frozen.widths.name ∧
      Narrowest index.config.minIdWidth
        (fun v => index.table.size + 1 ≤ 2 ^ WidthClass.bits v - 1) frozen.widths.id ∧
      Narrowest index.config.minOffsetWidth
        (fun v => index.fileSize { frozen.widths with offset := v } - 1 ≤ 2 ^ WidthClass.bits v - 1)
        frozen.widths.offset ∧
      frozen.table.size < frozen.widths.id.sentinel ∧
      frozen.encode.length = index.fileSize frozen.widths ∧
      writeAll frozen.pieces = frozen.encode ∧ ∀ piece ∈ frozen.pieces, piece.HasRoom := by
  have hsound := hmade.sound
  simp only [← WidthClass.maxValue_eq]
  refine ⟨index.maxNameLength_isGreatest, index.maxChildCount_isGreatest, ?_, ?_, ?_⟩
  · have hfrozen : (∃ frozen, index.finalize = .ok frozen) ↔
        ∃ w, index.config.Chosen index.stats index.fileSize w := by
      simp only [finalize_eq_ok_iff]
      exact ⟨fun ⟨frozen, _, h⟩ => ⟨frozen.widths, h⟩,
        fun ⟨w, h⟩ => ⟨{ index.sorted with widths := w }, rfl, h⟩⟩
    exact hfrozen.trans Config.exists_chosen_iff
  · intro fault hfault
    have hexceeds := exceeds_of_finalize hfault
    exact ⟨hexceeds, hexceeds.max_lt⟩
  · intro frozen hfinal
    obtain ⟨hsorted, h⟩ := finalize_eq_ok_iff.mp hfinal
    have hfits := hsound.fits hfinal
    have hforest : frozen.table.AliasForest := by
      rw [hsorted]
      exact hsound.forest
    have hlayout : frozen.layout = index.layout frozen.widths := by
      rw [Frozen.layout, hsorted, layout_sorted]
    exact ⟨h.name, h.id, h.offset, hfits.results,
      frozen.length_encode.trans (congrArg Layout.totalSize hlayout), frozen.writeAll_pieces,
      hfits.hasRoom_pieces hforest⟩

/-- A symbol prefix that is one byte too long for the narrowest lengths, and IDs that are to be wider than
they need to be. -/
def longPrefix : Config :=
  { symbolPrefix := String.ofList (List.replicate 256 'x'), minIdWidth := .bits24 }

theorem Made.frozen_narrowest_longPrefix :
    ∃ index frozen, Index.build longPrefix false partingNames = .ok index ∧
      index.finalize = .ok frozen ∧ index.stats.maxNameLength = 256 ∧
      frozen.widths = { name := .bits16, id := .bits24, offset := .bits24 } ∧
      Narrowest .bits8 (fun v => 256 ≤ 2 ^ WidthClass.bits v - 1) frozen.widths.name ∧
      Narrowest .bits24 (fun v => 4 ≤ 2 ^ WidthClass.bits v - 1) frozen.widths.id ∧
      writeAll frozen.pieces = frozen.encode ∧ ∀ piece ∈ frozen.pieces, piece.HasRoom := by
  have hfacts : ((Index.build longPrefix false partingNames).toOption.bind fun index =>
      index.finalize.toOption.map fun frozen =>
        (index.stats.maxNameLength, index.table.size, index.config, frozen.widths)) =
      some (256, 3, longPrefix, { name := .bits16, id := .bits24, offset := .bits24 }) := by
    decide +kernel
  obtain ⟨index, hbuild, hfacts⟩ := Option.bind_eq_some_iff.mp hfacts
  obtain ⟨frozen, hfinal, hfacts⟩ := Option.map_eq_some_iff.mp hfacts
  rw [toOption_eq_some] at hbuild hfinal
  simp only [Prod.mk.injEq] at hfacts
  obtain ⟨hlength, hsize, hconfig, hwidths⟩ := hfacts
  have hmade : Made longPrefix index := .build hbuild
  obtain ⟨-, -, -, -, hchosen⟩ := Made.frozen_narrowest hmade
  obtain ⟨hname, hid, -, -, -, hwritten, hroom⟩ := hchosen frozen hfinal
  rw [hlength, hconfig] at hname
  rw [hsize, hconfig] at hid
  exact ⟨index, frozen, hbuild, hfinal, hlength, hwidths, hname, hid, hwritten, hroom⟩

end Index

end PrefixSearch
