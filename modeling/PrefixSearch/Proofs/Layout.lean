import PrefixSearch.Encoding

/-!
# The layout is right

The layout says where everything is before a byte is written.  The sizes it adds up are the lengths
of what is then written, so every section begins where the layout says, and the file is as long as
the layout says.
-/

namespace PrefixSearch

/-! ## Positions -/

theorem positionsOnto_eq (done : List Nat) (next : Nat) (sizes : List Nat) :
    positionsOnto done next sizes = done.reverse ++ positionsOnto [] next sizes := by
  induction sizes generalizing done next with
  | nil => simp [positionsOnto]
  | cons size sizes ih =>
      rw [positionsOnto, positionsOnto, ih (next :: done), ih [next]]
      simp

@[simp] theorem positions_nil (start : Nat) : positions start [] = [start] := rfl

theorem positions_cons (start size : Nat) (sizes : List Nat) :
    positions start (size :: sizes) = start :: positions (start + size) sizes := by
  rw [positions, positionsOnto, positionsOnto_eq]
  rfl

@[simp] theorem length_positions (start : Nat) (sizes : List Nat) :
    (positions start sizes).length = sizes.length + 1 := by
  induction sizes generalizing start with
  | nil => rfl
  | cons size sizes ih => rw [positions_cons, List.length_cons, ih, List.length_cons]

theorem positionBehind_cons (start size : Nat) (sizes : List Nat) :
    positionBehind start (size :: sizes) = positionBehind (start + size) sizes := rfl

theorem positionBehind_append (start : Nat) (left right : List Nat) :
    positionBehind start (left ++ right) = positionBehind (positionBehind start left) right :=
  List.foldl_append

theorem le_positionBehind (start : Nat) (sizes : List Nat) : start ≤ positionBehind start sizes := by
  induction sizes generalizing start with
  | nil => exact Nat.le_refl start
  | cons size sizes ih => exact Nat.le_trans (Nat.le_add_right start size) (ih (start + size))

/-- Each position is behind the things before it. -/
theorem getElem?_positions (start : Nat) (sizes : List Nat) {i : Nat} (hi : i ≤ sizes.length) :
    (positions start sizes)[i]? = some (positionBehind start (sizes.take i)) := by
  induction sizes generalizing start i with
  | nil =>
      obtain rfl : i = 0 := Nat.le_zero.mp hi
      rfl
  | cons size sizes ih =>
      rw [positions_cons]
      cases i with
      | zero => rfl
      | succ i =>
          rw [List.getElem?_cons_succ, ih (start + size) (Nat.le_of_succ_le_succ hi),
            List.take_succ_cons, positionBehind_cons]

/-- The last position is behind everything. -/
theorem getLastD_positions (start : Nat) (sizes : List Nat) :
    (positions start sizes).getLastD 0 = positionBehind start sizes := by
  induction sizes generalizing start with
  | nil => rfl
  | cons size sizes ih =>
      have hne : positions (start + size) sizes ≠ [] := by
        intro hnil
        have hlength := length_positions (start + size) sizes
        rw [hnil] at hlength
        cases hlength
      have hlast := ih (start + size)
      rw [List.getLastD_eq_getLast?] at hlast
      rw [positions_cons, List.getLastD_eq_getLast?, List.getLast?_cons_of_ne_nil hne, hlast,
        positionBehind_cons]

/-- Fields that follow one another from a position on end at the position behind their sizes. -/
theorem add_length_flatMap {α : Type} {field : α → List UInt8} {size : α → Nat}
    (hfield : ∀ a, (field a).length = size a) (start : Nat) (values : List α) :
    start + (values.flatMap field).length = positionBehind start (values.map size) := by
  induction values generalizing start with
  | nil => rfl
  | cons a values ih =>
      rw [List.flatMap_cons, List.length_append, hfield, ← Nat.add_assoc, ih, List.map_cons,
        positionBehind_cons]

/-! ## Lengths of fields -/

theorem length_utf8 (s : String) : (Text.utf8 s).length = s.utf8ByteSize := by
  simp [Text.utf8]

namespace Widths

variable (w : Widths)

@[simp] theorem length_nameField (bytes : List UInt8) :
    (w.nameField bytes).length = w.nameBytes + bytes.length := by
  rw [nameField, List.length_append, Bytes.length_uint]

@[simp] theorem length_idField (id : Id) : (w.idField id).length = w.idBytes :=
  Bytes.length_uint _ _

@[simp] theorem length_offsetField (offset : Nat) :
    (w.offsetField offset).length = w.offsetBytes :=
  Bytes.length_uint _ _

/-- Fields of one length each. -/
theorem length_flatMap_of_eq {α : Type} {field : α → List UInt8} {length : Nat}
    (hfield : ∀ a, (field a).length = length) (values : List α) :
    (values.flatMap field).length = length * values.length := by
  induction values with
  | nil => rfl
  | cons a values ih =>
      rw [List.flatMap_cons, List.length_append, hfield, ih, List.length_cons, Nat.mul_succ,
        Nat.add_comm]

@[simp] theorem length_idsField (ids : List Id) : (w.idsField ids).length = w.idsSize ids := by
  rw [idsField, List.length_append, length_idField, length_flatMap_of_eq w.length_idField, idsSize]

theorem length_typeRowField (row : TypeRow) :
    (w.typeRowField row).length = w.typeRowSize row := by
  simp only [typeRowField, typeRowSize, List.length_cons, length_nameField, length_utf8]
  omega

theorem length_recordField (entry : Entry) :
    (w.recordField entry).length = w.recordSize entry := by
  simp only [recordField, recordSize, List.length_cons, List.length_append, length_idField,
    length_nameField, length_utf8]
  omega

theorem length_nodeField (label : List UInt8) (hits : Hits) (children : List (UInt8 × Nat)) :
    (w.nodeField label hits children).length = w.nodeSize label hits children.length := by
  have hchild : ∀ child : UInt8 × Nat, (child.1 :: w.offsetField child.2).length =
      1 + w.offsetBytes := by
    intro child
    rw [List.length_cons, length_offsetField, Nat.add_comm]
  simp only [nodeField, nodeSize, List.length_append, List.length_cons, length_nameField,
    length_idsField, length_flatMap_of_eq hchild]
  omega

theorem nodeSize_pos (label : List UInt8) (hits : Hits) (children : Nat) :
    0 < w.nodeSize label hits children := by
  unfold nodeSize
  omega

end Widths

namespace Forest

variable (w : Widths)

@[simp] theorem length_references (start : Nat) (f : Forest) :
    (f.references w start).length = f.firstBytes.length := by
  induction f generalizing start with
  | nil => rfl
  | cons label hits below next _ ihNext =>
      rw [references, firstBytes, List.length_cons, List.length_cons, ihNext]

theorem length_encode (start : Nat) (f : Forest) : (f.encode w start).length = f.byteSize w := by
  induction f generalizing start with
  | nil => rfl
  | cons label hits below next ihBelow ihNext =>
      simp only [encode, byteSize, List.length_append, Widths.length_nodeField, length_references,
        ihBelow, ihNext]
      omega

/-- The sizes that the layout adds up are those of the nodes. -/
theorem positionBehind_visits (start depth : Nat) (f : Forest) :
    positionBehind start ((f.visits depth).map fun v => w.nodeSize v.label v.hits v.children) =
      start + f.byteSize w := by
  induction f generalizing start depth with
  | nil => rfl
  | cons label hits below next ihBelow ihNext =>
      rw [visits, List.map_cons, List.map_append, positionBehind_cons, positionBehind_append,
        ihBelow, ihNext, byteSize]
      dsimp only
      omega

end Forest

theorem Trie.add_length_encode (w : Widths) (start : Nat) (t : Trie) :
    start + (t.encode w start).length =
      positionBehind start (t.visits.map fun v => w.nodeSize v.label v.hits v.children) := by
  rw [Trie.encode, Forest.length_encode, visits, List.map_cons, positionBehind_cons,
    Forest.positionBehind_visits, Forest.byteSize, Forest.byteSize, Nat.add_zero, Nat.add_assoc]

/-! ## Sections -/

@[simp] theorem ResultTable.length_entries (t : ResultTable) : t.entries.length = t.size := by
  simp [entries, size]

namespace Frozen

variable (frozen : Frozen)

theorem length_encodeHeader : frozen.encodeHeader.length = frozen.layout.typeMapOffset := by
  simp only [encodeHeader, layout, Index.layout, signature, headerSize, List.length_append,
    List.length_cons, List.length_nil, Bytes.length_uint, Widths.length_nameField, length_utf8]

theorem typeMapOffset_add :
    frozen.layout.typeMapOffset + frozen.encodeTypeMap.length = frozen.layout.resultsOffset := by
  have hrows := add_length_flatMap frozen.widths.length_typeRowField
    (frozen.layout.typeMapOffset + 1) frozen.typeMap
  rw [encodeTypeMap, List.length_cons]
  show _ = positionBehind (frozen.layout.typeMapOffset + 1)
    (frozen.typeMap.map frozen.widths.typeRowSize)
  omega

/-- The offsets of the records are one more than there are results. -/
theorem count_recordOffsets : frozen.layout.recordOffsets.length = frozen.table.size + 1 := by
  simp only [layout, Index.layout, length_positions, List.length_map, ResultTable.length_entries]

theorem length_recordOffsets :
    (frozen.layout.recordOffsets.flatMap frozen.widths.offsetField).length =
      (frozen.table.size + 1) * frozen.widths.offsetBytes := by
  rw [Widths.length_flatMap_of_eq frozen.widths.length_offsetField, count_recordOffsets,
    Nat.mul_comm]

theorem resultsOffset_add :
    frozen.layout.resultsOffset + frozen.encodeResults.length = frozen.layout.trieOffset := by
  have hrecords := add_length_flatMap frozen.widths.length_recordField
    (frozen.layout.resultsOffset + (frozen.table.size + 1) * frozen.widths.offsetBytes)
    frozen.table.entries
  rw [encodeResults, List.length_append, length_recordOffsets, ← Nat.add_assoc, hrecords]
  exact (getLastD_positions _ _).symm

/-- The first byte behind the offsets of the records. -/
def recordsOffset : Nat :=
  frozen.layout.resultsOffset + (frozen.table.size + 1) * frozen.widths.offsetBytes

/-- Where the record of a result begins, or where the records end if there is no such result. -/
def recordStart (id : Id) : Nat :=
  positionBehind frozen.recordsOffset ((frozen.table.entries.take id).map frozen.widths.recordSize)

theorem recordOffsets_eq {id : Id} (hid : id ≤ frozen.table.size) :
    frozen.layout.recordOffsets[id]? = some (frozen.recordStart id) := by
  rw [recordStart, List.map_take]
  refine getElem?_positions _ _ ?_
  rwa [List.length_map, ResultTable.length_entries]

theorem recordStart_succ {id : Id} {entry : Entry} (hentry : frozen.table.entries[id]? = some entry) :
    frozen.recordStart (id + 1) = frozen.recordStart id + frozen.widths.recordSize entry := by
  rw [recordStart, List.take_add_one, hentry, Option.toList_some, List.map_append,
    positionBehind_append]
  rfl

/-- Every record is between the offsets and the tree. -/
theorem recordStart_bounds (id : Id) :
    frozen.recordsOffset ≤ frozen.recordStart id ∧
      frozen.recordStart id ≤ frozen.layout.trieOffset := by
  refine ⟨le_positionBehind _ _, ?_⟩
  have hend : frozen.layout.trieOffset =
      positionBehind frozen.recordsOffset (frozen.table.entries.map frozen.widths.recordSize) :=
    getLastD_positions _ _
  rw [hend, ← List.take_append_drop id frozen.table.entries, List.map_append,
    positionBehind_append, recordStart]
  exact le_positionBehind _ _

/-- The records follow the table of their offsets. -/
theorem recordsOffset_le : frozen.recordsOffset ≤ frozen.layout.trieOffset :=
  Nat.le_trans (frozen.recordStart_bounds 0).1 (frozen.recordStart_bounds 0).2

theorem trieOffset_add :
    frozen.layout.trieOffset +
      (frozen.trie.encode frozen.widths frozen.layout.trieOffset).length =
        frozen.layout.totalSize := by
  rw [Trie.add_length_encode]
  exact (getLastD_positions _ _).symm

/-- The sections follow one another, and there is a root behind the others. -/
theorem sections_in_order :
    frozen.layout.typeMapOffset ≤ frozen.layout.resultsOffset ∧
      frozen.layout.resultsOffset ≤ frozen.layout.trieOffset ∧
        frozen.layout.trieOffset < frozen.layout.totalSize := by
  have htypeMap := frozen.typeMapOffset_add
  have hresults := frozen.resultsOffset_add
  have htrie := frozen.trieOffset_add
  have hroot := frozen.widths.nodeSize_pos [] frozen.trie.hits frozen.trie.forest.firstBytes.length
  rw [Trie.encode, Forest.length_encode, Forest.byteSize] at htrie
  omega

/-- The file is as long as the layout says. -/
theorem length_encode : frozen.encode.length = frozen.layout.totalSize := by
  rw [encode, List.length_append, List.length_append, List.length_append, length_encodeHeader,
    ← trieOffset_add, ← resultsOffset_add, ← typeMapOffset_add]
  omega

end Frozen

end PrefixSearch
