import PrefixSearch.Proofs.Arena.MadeTrees
import PrefixSearch.Proofs.Arena.Writing
import PrefixSearch.Proofs.DecodedResults

/-!
# The layout and the bytes

A file is written front to back, while its layout is made by two passes over an arena.  They agree on
the place of every section, record and node.  The width of offsets is chosen for the length of the file,
and no offset goes beyond it, so none is cut off, neither in the layout nor where it is written.
-/

namespace PrefixSearch

open Bytes (Source)

/-! ## Offsets that have room -/

namespace Layout

theorem narrow_eq {offset : Nat} (hoffset : offset < Bytes.capacity 4) : narrow offset = offset :=
  Nat.min_eq_left (Nat.le_of_lt_succ hoffset)

theorem map_narrow_eq {offsets : List Nat}
    (hoffsets : ∀ offset ∈ offsets, offset < Bytes.capacity 4) : offsets.map narrow = offsets := by
  conv_rhs => rw [← List.map_id offsets]
  exact List.map_congr_left fun offset hoffset => narrow_eq (hoffsets offset hoffset)

/-- All the offsets of a layout. -/
def offsets (layout : Layout) : List Nat :=
  [layout.typeMapOffset, layout.resultsOffset, layout.trieOffset] ++ layout.recordOffsets ++
    layout.nodeOffsets

theorem narrowed_eq {layout : Layout}
    (hoffsets : ∀ offset ∈ layout.offsets, offset < Bytes.capacity 4) :
    layout.narrowed = layout := by
  simp only [offsets, List.forall_mem_append, List.forall_mem_cons] at hoffsets
  obtain ⟨⟨⟨htypeMap, hresults, htrie, -⟩, hrecords⟩, hnodes⟩ := hoffsets
  rw [narrowed, narrow_eq htypeMap, narrow_eq hresults, narrow_eq htrie, map_narrow_eq hrecords,
    map_narrow_eq hnodes]

end Layout

/-! ## The layout of an arena -/

namespace Arena

variable {w : Widths} {layout : Layout} {a : Arena} {index : Index} {paths : List (List UInt8)}
  {id child : NodeId}

/-- A child is behind all the bytes of its parent. -/
theorem HasPaths.nodeOffset_le (h : a.HasPaths paths) (hplaced : a.Placed w layout.nodeOffset id)
    (hchild : child ∈ a.childrenOf id) :
    layout.nodeOffset id + a.nodeSize w id ≤ layout.nodeOffset child := by
  obtain ⟨byte, hslot⟩ := mem_childrenOf.mp hchild
  obtain ⟨path, hpath⟩ := h.exists_path (lt_size_of_child? hslot)
  obtain ⟨below, hbelow⟩ := h.exists_reads hpath
  have hreference : ((a.label child).headD 0, layout.nodeOffset child) ∈
      a.referencesTo layout.nodeOffset (a.childrenOf id) := List.mem_map_of_mem hchild
  rw [hplaced below hbelow] at hreference
  exact (Forest.references_bounds hreference).1

theorem nodeOffset_layout (index : Index) (w : Widths) (a : Arena) (id : NodeId) :
    (a.layout index w).nodeOffset id = numberAt (a.offsetsAt w (index.layout w).trieOffset) id := by
  rw [Layout.nodeOffset, layout, Array.getElem?_toList, numberAt]

/-- The root is where the sections end, and the nodes below every node are right behind it. -/
theorem HasPaths.placed_layout (h : a.HasPaths paths) (index : Index) (w : Widths) :
    (a.layout index w).nodeOffset root = (index.layout w).trieOffset ∧
      ∀ id, a.Placed w (a.layout index w).nodeOffset id := by
  obtain ⟨-, hroot, hplaced⟩ := h.placed_offsetsAt w (index.layout w).trieOffset
  have hoffset : (a.layout index w).nodeOffset =
      numberAt (a.offsetsAt w (index.layout w).trieOffset) := funext (nodeOffset_layout index w a)
  rw [hoffset]
  exact ⟨hroot, hplaced⟩

/-- But for the order of the nodes, it is the layout of the tree. -/
theorem Stores.layout_eq (hstores : a.Stores index.trie) (h : a.HasPaths paths) (w : Widths) :
    a.layout index w =
      { index.layout w with
        nodeOffsets := (a.offsetsAt w (index.layout w).trieOffset).toList } := by
  have htotal : (index.layout w).totalSize =
      (index.layout w).trieOffset + numberAt (a.subtreeSizes w) root := by
    rw [hstores.numberAt_root h, ← Forest.length_encode w (index.layout w).trieOffset,
      ← Trie.encode, Trie.add_length_encode]
    exact getLastD_positions _ _
  rw [layout, ← htotal]

end Arena

/-! ## What is where -/

namespace Frozen

/-- The bytes of the file. -/
def source (frozen : Frozen) : Source :=
  .ofArray frozen.encode.toArray

/-- The sections before the tree are where the layout says, one after the other, and the records are
between their offsets. -/
structure SectionsAt (frozen : Frozen) (layout : Layout) : Prop where
  length_eq : frozen.encode.length = layout.totalSize
  header : frozen.source.Holds 0 frozen.encodeHeader
  header_end : frozen.encodeHeader.length = layout.typeMapOffset
  typeMap : frozen.source.Holds layout.typeMapOffset frozen.encodeTypeMap
  typeMap_end : layout.typeMapOffset + frozen.encodeTypeMap.length = layout.resultsOffset
  recordTable : frozen.source.Holds layout.resultsOffset
    (layout.recordOffsets.flatMap frozen.widths.offsetField)
  length_recordOffsets : layout.recordOffsets.length = frozen.table.size + 1
  records_begin : layout.recordOffsets.head? = some (layout.resultsOffset +
    (layout.recordOffsets.flatMap frozen.widths.offsetField).length)
  records : ∀ id entry, frozen.table.entries[id]? = some entry → ∃ start,
    layout.recordOffsets[id]? = some start ∧
      frozen.source.Holds start (frozen.widths.recordField entry) ∧
        layout.recordOffsets[id + 1]? = some (start + (frozen.widths.recordField entry).length)
  records_end : layout.recordOffsets.getLast? = some layout.trieOffset

/-- The nodes of the arena are where the layout says, in depth-first order and one after the other up to
the end of the file, and every child is behind its parent. -/
structure NodesAt (frozen : Frozen) (a : Arena) (layout : Layout) : Prop where
  length_nodeOffsets : layout.nodeOffsets.length = a.size
  perm : a.preorder.Perm (List.range a.size)
  positions_eq : positions layout.trieOffset (a.preorder.map (a.nodeSize frozen.widths)) =
    a.preorder.map layout.nodeOffset ++ [layout.totalSize]
  nodes : ∀ id < a.size,
    frozen.source.Holds (layout.nodeOffset id) (a.encodeNode frozen.widths layout id) ∧
      (a.encodeNode frozen.widths layout id).length = a.nodeSize frozen.widths id
  children : ∀ id, ∀ child ∈ a.childrenOf id,
    layout.nodeOffset id < layout.nodeOffset child ∧
      layout.nodeOffset child < frozen.encode.length

section

variable (frozen : Frozen)

theorem getLast?_recordOffsets :
    frozen.layout.recordOffsets.getLast? = some frozen.layout.trieOffset := by
  have hlast : frozen.layout.recordOffsets.getLastD 0 = frozen.layout.trieOffset := rfl
  rw [List.getLastD_eq_getLast?] at hlast
  cases hfound : frozen.layout.recordOffsets.getLast? with
  | none =>
      have hcount := frozen.count_recordOffsets
      rw [List.getLast?_eq_none_iff.mp hfound] at hcount
      cases hcount
  | some last => rw [← hlast, hfound, Option.getD_some]

/-- The places of the sections and the records do not depend on those of the nodes. -/
theorem sectionsAt (nodeOffsets : List Nat) :
    frozen.SectionsAt { frozen.layout with nodeOffsets } := by
  obtain ⟨hheader, htypeMap, hresults, -⟩ := frozen.holds_sections
  rw [encodeResults, Source.holds_append] at hresults
  refine
    { length_eq := frozen.length_encode
      header := hheader
      header_end := frozen.length_encodeHeader
      typeMap := htypeMap
      typeMap_end := frozen.typeMapOffset_add
      recordTable := hresults.1
      length_recordOffsets := frozen.count_recordOffsets
      records_begin := ?_
      records := fun id entry hentry => ?_
      records_end := frozen.getLast?_recordOffsets }
  · rw [length_recordOffsets, List.head?_eq_getElem?]
    exact frozen.recordOffsets_eq (Nat.zero_le _)
  · obtain ⟨hid, -⟩ := List.getElem?_eq_some_iff.mp hentry
    rw [ResultTable.length_entries] at hid
    refine ⟨frozen.recordStart id, frozen.recordOffsets_eq (Nat.le_of_lt hid),
      Fits.holds_record hentry, ?_⟩
    rw [Widths.length_recordField, ← frozen.recordStart_succ hentry]
    exact frozen.recordOffsets_eq hid

/-- No record begins behind the start of the tree. -/
theorem recordOffset_le {offset : Nat} (hoffset : offset ∈ frozen.layout.recordOffsets) :
    offset ≤ frozen.layout.trieOffset := by
  obtain ⟨id, hid⟩ := List.mem_iff_getElem?.mp hoffset
  obtain ⟨hlt, -⟩ := List.getElem?_eq_some_iff.mp hid
  rw [count_recordOffsets] at hlt
  rw [frozen.recordOffsets_eq (Nat.le_of_lt_succ hlt), Option.some.injEq] at hid
  rw [← hid]
  exact (frozen.recordStart_bounds id).2

end

variable {frozen : Frozen} {a : Arena} {paths : List (List UInt8)}

/-- The file ends with the bytes of the arena. -/
theorem encode_eq (hstores : a.Stores frozen.trie) (h : a.HasPaths paths) :
    frozen.encode = frozen.encodeHeader ++ (frozen.encodeTypeMap ++ (frozen.encodeResults ++
      a.encode frozen.widths (a.layout frozen.toIndex frozen.widths))) := by
  obtain ⟨hroot, hplaced⟩ := h.placed_layout frozen.toIndex frozen.widths
  rw [hstores.encode_eq h hroot hplaced]
  rfl

/-- A node is behind the nodes that are written before it. -/
theorem positionBehind_nodes (hstores : a.Stores frozen.trie) (h : a.HasPaths paths) {i : Nat}
    {id : NodeId} (hid : a.preorder[i]? = some id) :
    positionBehind frozen.layout.trieOffset
        ((a.preorder.take i).map (a.nodeSize frozen.widths)) =
      (a.layout frozen.toIndex frozen.widths).nodeOffset id := by
  obtain ⟨hroot, hplaced⟩ := h.placed_layout frozen.toIndex frozen.widths
  have hpositions := congrArg (·[i]?) (hstores.positions_eq h hroot hplaced)
  obtain ⟨hi, -⟩ := List.getElem?_eq_some_iff.mp hid
  have hsizes : i ≤ (a.preorder.map (a.nodeSize frozen.widths)).length := by
    rw [List.length_map]
    exact Nat.le_of_lt hi
  rw [getElem?_positions _ _ hsizes, List.getElem?_append_left (by rwa [List.length_map]),
    List.getElem?_map, hid, Option.map_some, Option.some.injEq, ← List.map_take] at hpositions
  exact hpositions

theorem holds_node (hstores : a.Stores frozen.trie) (h : a.HasPaths paths) {id : NodeId}
    (hid : id < a.size) :
    frozen.source.Holds ((a.layout frozen.toIndex frozen.widths).nodeOffset id)
      (a.encodeNode frozen.widths (a.layout frozen.toIndex frozen.widths) id) := by
  obtain ⟨hroot, hplaced⟩ := h.placed_layout frozen.toIndex frozen.widths
  obtain ⟨i, hi⟩ := List.mem_iff_getElem?.mp (h.mem_preorder.mpr hid)
  obtain ⟨-, -, -, htree⟩ := frozen.holds_sections
  -- the bytes of the tree are those of the nodes, one after the other
  have hbytes : a.encode frozen.widths (a.layout frozen.toIndex frozen.widths) =
      frozen.trie.encode frozen.widths frozen.layout.trieOffset := hstores.encode_eq h hroot hplaced
  rw [← hbytes, Arena.encode] at htree
  have hholds := htree.flatMap hi
  rwa [add_length_flatMap (Arena.length_encodeNode _ _ a), positionBehind_nodes hstores h hi]
    at hholds

theorem nodeOffset_lt (hstores : a.Stores frozen.trie) (h : a.HasPaths paths) {id : NodeId}
    (hid : id < a.size) :
    (a.layout frozen.toIndex frozen.widths).nodeOffset id < frozen.encode.length := by
  have hend := (holds_node hstores h hid).le_size
  have hsize := a.nodeSize_pos frozen.widths id
  have hlength : frozen.source.size = frozen.encode.length := by simp [source]
  rw [Arena.length_encodeNode] at hend
  omega

theorem length_nodeOffsets (frozen : Frozen) (h : a.HasPaths paths) :
    (a.layout frozen.toIndex frozen.widths).nodeOffsets.length = a.size :=
  Array.length_toList.trans (h.placed_offsetsAt frozen.widths frozen.layout.trieOffset).1

theorem nodesAt (hstores : a.Stores frozen.trie) (h : a.HasPaths paths) :
    frozen.NodesAt a (a.layout frozen.toIndex frozen.widths) := by
  obtain ⟨hroot, hplaced⟩ := h.placed_layout frozen.toIndex frozen.widths
  refine
    { length_nodeOffsets := length_nodeOffsets frozen h
      perm := h.perm_preorder
      positions_eq := hstores.positions_eq h hroot hplaced
      nodes := fun id hid => ⟨holds_node hstores h hid, Arena.length_encodeNode _ _ _ _⟩
      children := fun id child hchild => ?_ }
  obtain ⟨byte, hslot⟩ := Arena.mem_childrenOf.mp hchild
  have hbehind := h.nodeOffset_le (hplaced id) hchild
  have hsize := a.nodeSize_pos frozen.widths id
  exact ⟨by omega, nodeOffset_lt hstores h (h.child_lt_size hslot)⟩

/-- Every offset of the layout is in the file. -/
theorem lt_length_encode (hstores : a.Stores frozen.trie) (h : a.HasPaths paths) {offset : Nat}
    (hoffset : offset ∈ (a.layout frozen.toIndex frozen.widths).offsets) :
    offset < frozen.encode.length := by
  obtain ⟨hresults, htrie, hroot⟩ := frozen.sections_in_order
  rw [← length_encode] at hroot
  have hsection : ∀ offset ∈ [frozen.layout.typeMapOffset, frozen.layout.resultsOffset,
      frozen.layout.trieOffset], offset ≤ frozen.layout.trieOffset := by
    simp only [List.forall_mem_cons]
    exact ⟨Nat.le_trans hresults htrie, htrie, Nat.le_refl _, nofun⟩
  rcases List.mem_append.mp hoffset with hbefore | hnode
  · rcases List.mem_append.mp hbefore with hfirst | hrecord
    · exact Nat.lt_of_le_of_lt (hsection offset hfirst) hroot
    · exact Nat.lt_of_le_of_lt (frozen.recordOffset_le hrecord) hroot
  · obtain ⟨id, hid⟩ := List.mem_iff_getElem?.mp hnode
    obtain ⟨hlt, -⟩ := List.getElem?_eq_some_iff.mp hid
    rw [length_nodeOffsets frozen h] at hlt
    have hinside := nodeOffset_lt hstores h hlt
    rwa [Layout.nodeOffset, hid, Option.getD_some] at hinside

/-- In a file that offsets can reach to the end of, nothing is cut off. -/
theorem layoutOf_eq (hfile : frozen.layout.totalSize ≤ Bytes.capacity frozen.widths.offsetBytes)
    (hstores : a.Stores frozen.trie) (h : a.HasPaths paths) :
    frozen.layoutOf a = a.layout frozen.toIndex frozen.widths := by
  refine Layout.narrowed_eq fun offset hoffset => ?_
  have hinside := lt_length_encode hstores h hoffset
  rw [length_encode] at hinside
  exact Nat.lt_of_lt_of_le (Nat.lt_of_lt_of_le hinside hfile) frozen.widths.capacity_offsetBytes_le

end Frozen

/-! ## What indexes are frozen to -/

namespace Index

variable {config : Config} {index : Index} {frozen : Frozen}

/-- Whatever an index was made by, the layout of its file and the bytes of its file agree on every
section, record and node, and no offset is cut off. -/
theorem Made.layout_agrees [Search] (hmade : Made config index) (hfinal : index.finalize = .ok frozen) :
    (∃ a, Arena.Alike a frozen.trie) ∧ ∀ a, Arena.Alike a frozen.trie →
      frozen.layoutOf a = a.layout frozen.toIndex frozen.widths ∧
      frozen.layoutOf a =
        { frozen.layout with nodeOffsets := (frozen.layoutOf a).nodeOffsets } ∧
      frozen.encode = frozen.encodeHeader ++ (frozen.encodeTypeMap ++ (frozen.encodeResults ++
        a.encode frozen.widths (frozen.layoutOf a))) ∧
      frozen.SectionsAt (frozen.layoutOf a) ∧ frozen.NodesAt a (frozen.layoutOf a) ∧
      ∀ offset ∈ (frozen.layoutOf a).offsets, offset < frozen.encode.length ∧
        Bytes.toNat (frozen.widths.offsetField offset) = offset := by
  have hfits : frozen.Fits := hmade.sound.fits hfinal
  have hsorted : frozen.toIndex = index.sorted := (finalize_eq_ok hfinal).1
  constructor
  · obtain ⟨a, ha⟩ := hmade.exists_alike
    rw [hsorted]
    exact ⟨_, ha.sort index.table⟩
  · intro a ha
    -- any arena of this tree will do, in whatever order its nodes were made
    obtain ⟨paths, h, hstores⟩ := ha.stores
    have hlayout : a.layout frozen.toIndex frozen.widths = { frozen.layout with
        nodeOffsets := (a.layout frozen.toIndex frozen.widths).nodeOffsets } :=
      hstores.layout_eq h frozen.widths
    rw [Frozen.layoutOf_eq hfits.file hstores h]
    refine ⟨rfl, hlayout, Frozen.encode_eq hstores h, ?_, Frozen.nodesAt hstores h, ?_⟩
    · rw [hlayout]
      exact frozen.sectionsAt _
    · intro offset hoffset
      have hinside := Frozen.lt_length_encode hstores h hoffset
      refine ⟨hinside, Bytes.toNat_uint_of_lt ?_⟩
      rw [Frozen.length_encode] at hinside
      exact Nat.lt_of_lt_of_le hinside hfits.file

/-- The tree of some texts in an arena, every set in rank order. -/
def arenaWith [Search] (index : Index) (terms : List Term) : Arena :=
  (Arena.insertAll index.table terms { bound := index.config.maxCompletions }).sort index.table

theorem alike_arenaWith [Search] (index : Index) (terms : List Term) :
    Arena.Alike (index.arenaWith terms) (index.withTree terms).sorted.trie :=
  (Arena.Alike.ofTerms _ _ terms).sort index.table

/-- Three entries.  The name of the last one is the beginning of that of the first one. -/
def partingNames : List Entry := [
  { name := "foobar", url := "a.html", kind := .page },
  { name := "b", url := "b.html", kind := .page },
  { name := "foo", url := "c.html", kind := .function }]

/-- The node for the first name was the first one below the root, but it is written last, behind the node
that it came to be below. -/
theorem Made.layout_agrees_partingNames :
    ∃ terms last index frozen, (empty {}).registerAll partingNames = .ok (terms, last) ∧
      Index.build {} false partingNames = .ok index ∧ index.finalize = .ok frozen ∧
      Arena.Alike (last.arenaWith terms) frozen.trie ∧
      (last.arenaWith terms).preorder = [0, 2, 3, 1] ∧
      (frozen.layoutOf (last.arenaWith terms)).nodeOffsets = [101, 151, 121, 132] ∧
      frozen.encode.length = 164 ∧
      frozen.source.Holds 151 ((last.arenaWith terms).encodeNode frozen.widths
        (frozen.layoutOf (last.arenaWith terms)) 1) := by
  have hfacts : (((empty {}).registerAll partingNames).toOption.bind fun state =>
      (Index.build {} false partingNames).toOption.bind fun index =>
        index.finalize.toOption.map fun frozen =>
          let a := state.2.arenaWith state.1
          (a.preorder, a.size, (frozen.layoutOf a).nodeOffsets, (frozen.layoutOf a).totalSize)) =
      some ([0, 2, 3, 1], 4, [101, 151, 121, 132], 164) := by
    decide +kernel
  obtain ⟨⟨terms, last⟩, hregister, hfacts⟩ := Option.bind_eq_some_iff.mp hfacts
  obtain ⟨index, hbuild, hfacts⟩ := Option.bind_eq_some_iff.mp hfacts
  obtain ⟨frozen, hfinal, hfacts⟩ := Option.map_eq_some_iff.mp hfacts
  rw [toOption_eq_some] at hregister hbuild hfinal
  simp only [Prod.mk.injEq] at hfacts
  obtain ⟨hpreorder, hsize, hoffsets, htotal⟩ := hfacts
  have halike : Arena.Alike (last.arenaWith terms) frozen.trie := by
    rw [(finalize_eq_ok hfinal).1]
    cases (addAll_of_registerAll hregister).symm.trans hbuild
    exact last.alike_arenaWith terms
  obtain ⟨-, hagrees⟩ := Made.layout_agrees (.build hbuild) hfinal
  obtain ⟨-, -, -, hsections, hnodes, -⟩ := hagrees _ halike
  refine ⟨terms, last, index, frozen, hregister, hbuild, hfinal, halike, hpreorder, hoffsets,
    hsections.length_eq.trans htotal, ?_⟩
  obtain ⟨hholds, -⟩ := hnodes.nodes 1 (by rw [hsize]; decide)
  rwa [Layout.nodeOffset, hoffsets] at hholds

end Index

end PrefixSearch
