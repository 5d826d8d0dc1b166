import PrefixSearch.Proofs.Layout
import PrefixSearch.Proofs.Operations
import PrefixSearch.Proofs.WidthChoice

/-!
# The chosen widths are wide enough

Freezing measures the index before it chooses widths, and what it measures bounds everything that is
written: no length, ID, number of children or offset of the file is cut off.  The sets of the tree
need no measure of their own, because a set of distinct results has fewer members than IDs can
tell apart.
-/

namespace PrefixSearch

namespace Widths

variable (w : Widths)

theorem capacity_idBytes_le : Bytes.capacity w.idBytes ≤ Bytes.capacity 4 := by
  unfold idBytes
  cases w.id <;> decide

theorem capacity_offsetBytes_le : Bytes.capacity w.offsetBytes ≤ Bytes.capacity 4 := by
  unfold offsetBytes
  cases w.offset <;> decide

end Widths

theorem le_foldl_max (values : List Nat) (start : Nat) :
    start ≤ values.foldl max start ∧ ∀ value ∈ values, value ≤ values.foldl max start := by
  induction values generalizing start with
  | nil => simp
  | cons head values ih =>
      obtain ⟨hstart, hvalues⟩ := ih (max start head)
      rw [List.foldl_cons, List.forall_mem_cons]
      exact ⟨by omega, by omega, hvalues⟩

theorem le_maximum {values : List Nat} {value : Nat} (hvalue : value ∈ values) :
    value ≤ maximum values :=
  (le_foldl_max values 0).2 value hvalue

theorem foldl_max_le {values : List Nat} {start bound : Nat} (hstart : start ≤ bound)
    (hvalues : ∀ value ∈ values, value ≤ bound) : values.foldl max start ≤ bound := by
  induction values generalizing start with
  | nil => exact hstart
  | cons head values ih =>
      obtain ⟨hhead, hrest⟩ := List.forall_mem_cons.mp hvalues
      exact ih (Nat.max_le.mpr ⟨hstart, hhead⟩) hrest

theorem maximum_le_iff {values : List Nat} {bound : Nat} :
    maximum values ≤ bound ↔ ∀ value ∈ values, value ≤ bound :=
  ⟨fun hmax _ hvalue => Nat.le_trans (le_maximum hvalue) hmax, foldl_max_le (Nat.zero_le bound)⟩

/-- A maximum does not depend on the order of the numbers. -/
theorem maximum_congr {left right : List Nat} (hmem : ∀ value, value ∈ left ↔ value ∈ right) :
    maximum left = maximum right :=
  Nat.le_antisymm
    (maximum_le_iff.mpr fun value hvalue => le_maximum ((hmem value).mp hvalue))
    (maximum_le_iff.mpr fun value hvalue => le_maximum ((hmem value).mpr hvalue))

namespace Visit

/-- A file of the given widths and number of results has room for what a node stores. -/
structure Fits (w : Widths) (size : Nat) (v : Visit) : Prop where
  label : v.label.length < Bytes.capacity w.nameBytes
  children : v.children ≤ 255
  hits : v.hits.Within size

end Visit

namespace Frozen

/-- The file has room for everything that is written. -/
structure Fits (frozen : Frozen) : Prop where
  symbolPrefix : frozen.config.symbolPrefix.utf8ByteSize < Bytes.capacity frozen.widths.nameBytes
  typeLabels : ∀ row ∈ frozen.typeMap,
    row.label.utf8ByteSize < Bytes.capacity frozen.widths.nameBytes
  entries : ∀ entry ∈ frozen.table.entries,
    max entry.nameLength entry.url.utf8ByteSize < Bytes.capacity frozen.widths.nameBytes
  results : frozen.table.size < frozen.widths.id.sentinel
  file : frozen.layout.totalSize ≤ Bytes.capacity frozen.widths.offsetBytes
  wellFormed : frozen.trie.forest.WellFormed
  nodes : ∀ v ∈ frozen.trie.visits, v.Fits frozen.widths frozen.table.size

end Frozen

namespace Index

variable {index : Index} {frozen : Frozen}

/-- The index as it is frozen, every set in rank order. -/
def sorted (index : Index) : Index :=
  { index with trie := index.trie.sort index.table }

/-- Freezing chooses the widths for the index with its sets in rank order. -/
theorem finalize_eq (index : Index) :
    index.finalize =
      (index.config.chooseWidths index.sorted.stats fun w =>
        (index.sorted.layout w).totalSize).map fun widths => { index.sorted with widths } :=
  bind_pure_comp (fun widths => ({ index.sorted with widths } : Frozen)) _

/-- The file of an index, or why there is none. -/
theorem map_encode_finalize (index : Index) :
    index.finalize.map Frozen.encode =
      (index.config.chooseWidths index.sorted.stats fun w =>
        (index.sorted.layout w).totalSize).map fun widths =>
          Frozen.encode { index.sorted with widths } := by
  rw [finalize_eq]
  cases index.config.chooseWidths index.sorted.stats fun w => (index.sorted.layout w).totalSize <;>
    rfl

/-- Freezing sorts the sets and changes nothing else, and the measures are below the limits of the
chosen widths. -/
theorem finalize_eq_ok (hfinal : index.finalize = .ok frozen) :
    frozen.toIndex = index.sorted ∧ index.sorted.stats.maxChildCount ≤ 255 ∧
      index.sorted.stats.maxNameLength < Bytes.capacity frozen.widths.nameBytes ∧
        index.table.size < frozen.widths.id.sentinel ∧
          frozen.layout.totalSize ≤ Bytes.capacity frozen.widths.offsetBytes := by
  obtain ⟨w, hw, hfrozen⟩ := except_bind_eq_ok.mp hfinal
  cases hfrozen
  have hchosen := Config.chooseWidths_eq_ok_iff.mp hw
  exact ⟨rfl, hchosen.children, WidthClass.le_maxValue_iff.mp hchosen.name.is_enough,
    hchosen.id.is_enough, hchosen.size_le⟩

/-- A sound index that can be frozen fits its file. -/
theorem Sound.fits (hindex : index.Sound) (hfinal : index.finalize = .ok frozen) :
    frozen.Fits := by
  obtain ⟨hsorted, hchildren, hname, hsize, hfile⟩ := finalize_eq_ok hfinal
  -- every length that is stored is among those that were measured
  have hlength : ∀ length ∈
      index.sorted.table.entries.map (fun entry =>
        max entry.nameLength entry.url.utf8ByteSize) ++
        index.sorted.trie.visits.map (·.label.length) ++
        index.sorted.table.typeMap.map (·.label.utf8ByteSize) ++
        [index.sorted.config.symbolPrefix.utf8ByteSize],
      length < Bytes.capacity frozen.widths.nameBytes := fun length hlength =>
    Nat.lt_of_le_of_lt (le_maximum hlength) hname
  simp only [List.forall_mem_append, List.forall_mem_map, List.forall_mem_singleton] at hlength
  obtain ⟨⟨⟨hentries, hlabels⟩, htypeLabels⟩, hsymbol⟩ := hlength
  have hsound : frozen.trie.Sound frozen.table.size := by
    rw [hsorted]
    exact hindex.trie.sort
  refine
    { symbolPrefix := ?_
      typeLabels := ?_
      entries := ?_
      results := ?_
      file := hfile
      wellFormed := hsound.wellFormed
      nodes := ?_ }
  · rw [hsorted]
    exact hsymbol
  · rw [Frozen.typeMap, hsorted]
    exact htypeLabels
  · rw [hsorted]
    exact hentries
  · rw [hsorted]
    exact hsize
  · have hhits := Trie.all_iff_visits.mp hsound.all
    intro v hv
    have hsame : v ∈ index.sorted.trie.visits := by rwa [hsorted] at hv
    exact
      { label := hlabels v hsame
        children := Nat.le_trans (le_maximum (List.mem_map_of_mem hsame)) hchildren
        hits := hhits v hv }

end Index

end PrefixSearch
