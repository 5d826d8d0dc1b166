import PrefixSearch.Proofs.BytePositions

/-!
# Every number has room

A file is written from numbers, each with a number of bytes of its own, and from bytes that are written as
they are.  Here is the list of all of them, from the header to the last node.  In a file that fits, none of
the numbers needs more bytes than it has.
-/

namespace PrefixSearch

/-- What is written at once: a number with its number of bytes, or bytes as they are. -/
inductive Piece where
  | number (width value : Nat)
  | raw (bytes : List UInt8)
deriving DecidableEq, Repr

namespace Piece

def write : Piece → List UInt8
  | .number width value => Bytes.uint width value
  | .raw bytes => bytes

/-- The number has room in its bytes. -/
def HasRoom : Piece → Prop
  | .number width value => value < Bytes.capacity width
  | .raw _ => True

/-- What has room is read back as it was. -/
theorem toNat_write {width value : Nat} (h : (number width value).HasRoom) :
    Bytes.toNat (number width value).write = value :=
  Bytes.toNat_uint_of_lt h

end Piece

/-! ## The pieces of a file -/

namespace Widths

variable (w : Widths)

def namePieces (bytes : List UInt8) : List Piece :=
  [.number w.nameBytes bytes.length, .raw bytes]

def idPiece (id : Id) : Piece :=
  .number w.idBytes id

def offsetPiece (offset : Nat) : Piece :=
  .number w.offsetBytes offset

def idsPieces (ids : List Id) : List Piece :=
  w.idPiece ids.length :: ids.map w.idPiece

def typeRowPieces (row : TypeRow) : List Piece :=
  .raw [row.kind.tag, row.cssClass.code] :: w.namePieces (Text.utf8 row.label)

def recordPieces (entry : Entry) : List Piece :=
  [.raw [entry.flags.bits, entry.kind.tag], w.idPiece (entry.target.getD w.id.sentinel),
    .raw [entry.suffixLength]] ++
    (w.namePieces (Text.utf8 entry.name) ++ w.namePieces (Text.utf8 entry.url))

/-- The pieces of a reference to a child: its first byte and its offset. -/
def childPieces (child : UInt8 × Nat) : List Piece :=
  [.raw [child.1], w.offsetPiece child.2]

def nodePieces (label : List UInt8) (hits : Hits) (children : List (UInt8 × Nat)) : List Piece :=
  w.namePieces label ++
    .number 1 children.length ::
      (children.flatMap w.childPieces ++ (w.idsPieces hits.exact ++ w.idsPieces hits.completions))

end Widths

/-- The pieces of a forest that is written at `start`. -/
def Forest.pieces (w : Widths) (start : Nat) : Forest → List Piece
  | .nil => []
  | .cons label hits below next =>
      let inner := start + w.nodeSize label hits below.firstBytes.length
      w.nodePieces label hits (below.references w inner) ++
        (below.pieces w inner ++ next.pieces w (inner + below.byteSize w))

namespace Frozen

variable (frozen : Frozen)

def headerPieces : List Piece :=
  let w := frozen.widths
  [.raw (signature ++
      [formatVersion, WidthClass.selector w.name, WidthClass.selector w.id,
        WidthClass.selector w.offset, if frozen.config.caseInsensitive then caseFlag else 0]),
    .number 4 frozen.table.size, .number 4 frozen.layout.typeMapOffset,
    .number 4 frozen.layout.resultsOffset, .number 4 frozen.layout.trieOffset] ++
    w.namePieces (Text.utf8 frozen.config.symbolPrefix)

def typeMapPieces : List Piece :=
  .number 1 frozen.typeMap.length :: frozen.typeMap.flatMap frozen.widths.typeRowPieces

def resultPieces : List Piece :=
  frozen.layout.recordOffsets.map frozen.widths.offsetPiece ++
    frozen.table.entries.flatMap frozen.widths.recordPieces

/-- The pieces of the whole file. -/
def pieces : List Piece :=
  frozen.headerPieces ++ (frozen.typeMapPieces ++ (frozen.resultPieces ++
    Forest.pieces frozen.widths frozen.layout.trieOffset
      (.cons [] frozen.trie.hits frozen.trie.forest .nil)))

end Frozen

/-! ## Written one after the other -/

/-- The bytes of pieces that are written one after the other. -/
def writeAll (pieces : List Piece) : List UInt8 :=
  pieces.flatMap Piece.write

theorem writeAll_cons (piece : Piece) (pieces : List Piece) :
    writeAll (piece :: pieces) = piece.write ++ writeAll pieces := rfl

theorem writeAll_append (left right : List Piece) :
    writeAll (left ++ right) = writeAll left ++ writeAll right :=
  List.flatMap_append

theorem writeAll_flatMap {α : Type} {pieces : α → List Piece} {field : α → List UInt8}
    (hfield : ∀ value, writeAll (pieces value) = field value) (values : List α) :
    writeAll (values.flatMap pieces) = values.flatMap field := by
  induction values with
  | nil => rfl
  | cons value values ih => rw [List.flatMap_cons, List.flatMap_cons, writeAll_append, hfield, ih]

theorem writeAll_map {α : Type} {piece : α → Piece} {field : α → List UInt8}
    (hfield : ∀ value, (piece value).write = field value) (values : List α) :
    writeAll (values.map piece) = values.flatMap field := by
  rw [writeAll, List.flatMap_map]
  exact congrArg (values.flatMap ·) (funext hfield)

namespace Widths

variable (w : Widths)

theorem writeAll_namePieces (bytes : List UInt8) :
    writeAll (w.namePieces bytes) = w.nameField bytes := by
  rw [namePieces, writeAll_cons, writeAll_cons, nameField]
  exact congrArg _ (List.append_nil bytes)

theorem writeAll_idsPieces (ids : List Id) : writeAll (w.idsPieces ids) = w.idsField ids := by
  rw [idsPieces, writeAll_cons, writeAll_map fun _ => rfl, idsField]
  rfl

theorem writeAll_typeRowPieces (row : TypeRow) :
    writeAll (w.typeRowPieces row) = w.typeRowField row := by
  rw [typeRowPieces, writeAll_cons, writeAll_namePieces]
  rfl

theorem writeAll_recordPieces (entry : Entry) :
    writeAll (w.recordPieces entry) = w.recordField entry := by
  simp only [recordPieces, writeAll_append, writeAll_cons, writeAll_namePieces, recordField,
    List.cons_append]
  rfl

theorem writeAll_nodePieces (label : List UInt8) (hits : Hits) (children : List (UInt8 × Nat)) :
    writeAll (w.nodePieces label hits children) = w.nodeField label hits children := by
  have hchild : ∀ child : UInt8 × Nat,
      writeAll (w.childPieces child) = child.1 :: w.offsetField child.2 := fun child =>
    congrArg (child.1 :: ·) (List.append_nil _)
  simp only [nodePieces, writeAll_append, writeAll_cons, writeAll_namePieces, writeAll_idsPieces,
    writeAll_flatMap hchild, nodeField]
  rfl

end Widths

theorem Forest.writeAll_pieces (w : Widths) (start : Nat) (f : Forest) :
    writeAll (f.pieces w start) = f.encode w start := by
  induction f generalizing start with
  | nil => rfl
  | cons label hits below next ihBelow ihNext =>
      simp only [pieces, encode, writeAll_append, Widths.writeAll_nodePieces, ihBelow, ihNext]

namespace Frozen

variable (frozen : Frozen)

theorem writeAll_headerPieces : writeAll frozen.headerPieces = frozen.encodeHeader := by
  simp only [headerPieces, writeAll_append, writeAll_cons, Widths.writeAll_namePieces,
    encodeHeader, List.append_assoc]
  rfl

theorem writeAll_typeMapPieces : writeAll frozen.typeMapPieces = frozen.encodeTypeMap := by
  rw [typeMapPieces, writeAll_cons, writeAll_flatMap frozen.widths.writeAll_typeRowPieces]
  rfl

theorem writeAll_resultPieces : writeAll frozen.resultPieces = frozen.encodeResults := by
  rw [resultPieces, writeAll_append, writeAll_flatMap frozen.widths.writeAll_recordPieces,
    writeAll_map fun _ => rfl]
  rfl

/-- The file is written from its pieces. -/
theorem writeAll_pieces : writeAll frozen.pieces = frozen.encode := by
  rw [pieces, writeAll_append, writeAll_append, writeAll_append, writeAll_headerPieces,
    writeAll_typeMapPieces, writeAll_resultPieces, Forest.writeAll_pieces]
  rfl

end Frozen

/-! ## Room for everything -/

namespace Widths

variable {w : Widths} {size : Nat}

theorem hasRoom_namePieces {bytes : List UInt8} (hlength : bytes.length < Bytes.capacity w.nameBytes) :
    ∀ piece ∈ w.namePieces bytes, piece.HasRoom := by
  simp only [namePieces, List.forall_mem_cons]
  exact ⟨hlength, trivial, List.forall_mem_nil _⟩

/-- Every ID, every number of IDs and the ID that means "no alias" have room. -/
theorem hasRoom_idPiece (hsize : size < w.id.sentinel) {id : Id} (hid : id ≤ size) :
    (w.idPiece id).HasRoom :=
  WidthClass.le_maxValue_iff.mp (Nat.le_of_lt (Nat.lt_of_le_of_lt hid hsize))

theorem hasRoom_idsPieces (hsize : size < w.id.sentinel) {ids : List Id} (hids : IdSet size ids) :
    ∀ piece ∈ w.idsPieces ids, piece.HasRoom := by
  rw [idsPieces, List.forall_mem_cons, List.forall_mem_map]
  exact ⟨hasRoom_idPiece hsize hids.length_le,
    fun id hid => hasRoom_idPiece hsize (Nat.le_of_lt (hids.2 id hid))⟩

theorem hasRoom_typeRowPieces {row : TypeRow}
    (hlabel : row.label.utf8ByteSize < Bytes.capacity w.nameBytes) :
    ∀ piece ∈ w.typeRowPieces row, piece.HasRoom := by
  rw [typeRowPieces, List.forall_mem_cons]
  exact ⟨trivial, hasRoom_namePieces (by rwa [length_utf8])⟩

theorem hasRoom_recordPieces (hsize : size < w.id.sentinel) {entry : Entry}
    (hlength : max entry.nameLength entry.url.utf8ByteSize < Bytes.capacity w.nameBytes)
    (htarget : ∀ target, entry.target = some target → target < size) :
    ∀ piece ∈ w.recordPieces entry, piece.HasRoom := by
  obtain ⟨hname, hurl⟩ := Nat.max_lt.mp hlength
  have hreference : (w.idPiece (entry.target.getD w.id.sentinel)).HasRoom := by
    cases hlink : entry.target with
    | none => exact WidthClass.le_maxValue_iff.mp (Nat.le_refl _)
    | some target => exact hasRoom_idPiece hsize (Nat.le_of_lt (htarget target hlink))
  simp only [recordPieces, List.forall_mem_append, List.forall_mem_cons]
  exact ⟨⟨trivial, hreference, trivial, List.forall_mem_nil _⟩, hasRoom_namePieces (by rwa [length_utf8]),
    hasRoom_namePieces (by rwa [length_utf8])⟩

theorem hasRoom_childPieces {child : UInt8 × Nat}
    (hoffset : child.2 < Bytes.capacity w.offsetBytes) :
    ∀ piece ∈ w.childPieces child, piece.HasRoom := by
  simp only [childPieces, List.forall_mem_cons]
  exact ⟨trivial, hoffset, List.forall_mem_nil _⟩

theorem hasRoom_nodePieces (hsize : size < w.id.sentinel) {v : Visit} (hv : v.Fits w size)
    {children : List (UInt8 × Nat)} (hcount : children.length = v.children)
    (hchildren : ∀ child ∈ children, child.2 < Bytes.capacity w.offsetBytes) :
    ∀ piece ∈ w.nodePieces v.label v.hits children, piece.HasRoom := by
  have hbyte : (Piece.number 1 children.length).HasRoom := by
    rw [hcount]
    exact Nat.lt_succ_of_le hv.children
  simp only [nodePieces, List.forall_mem_append, List.forall_mem_cons]
  refine ⟨hasRoom_namePieces hv.label, hbyte, ?_, hasRoom_idsPieces hsize hv.hits.1,
    hasRoom_idsPieces hsize hv.hits.2⟩
  intro piece hpiece
  obtain ⟨child, hchild, hpiece⟩ := List.mem_flatMap.mp hpiece
  exact hasRoom_childPieces (hchildren child hchild) piece hpiece

end Widths

/-- The nodes of a forest that ends where offsets still reach. -/
theorem Forest.hasRoom_pieces {w : Widths} {size depth start : Nat} {f : Forest}
    (hsize : size < w.id.sentinel) (hfits : ∀ v ∈ f.visits depth, v.Fits w size)
    (hend : start + f.byteSize w ≤ Bytes.capacity w.offsetBytes) :
    ∀ piece ∈ f.pieces w start, piece.HasRoom := by
  induction f generalizing start depth with
  | nil => exact nofun
  | cons label hits below next ihBelow ihNext =>
      rw [visits, List.forall_mem_cons, List.forall_mem_append] at hfits
      obtain ⟨hnode, hbelow, hnext⟩ := hfits
      rw [byteSize] at hend
      have hchildren : ∀ child ∈ below.references w
          (start + w.nodeSize label hits below.firstBytes.length),
          child.2 < Bytes.capacity w.offsetBytes := fun child hchild => by
        have hbounds := references_bounds hchild
        omega
      rw [pieces, List.forall_mem_append, List.forall_mem_append]
      exact ⟨Widths.hasRoom_nodePieces hsize hnode (length_references w _ below) hchildren,
        ihBelow hbelow (by omega), ihNext hnext (by omega)⟩

namespace Frozen

variable {frozen : Frozen}

/-- In a file that fits, every number has room, if aliases lead to results of the table. -/
theorem Fits.hasRoom_pieces (hfits : frozen.Fits) (hforest : frozen.table.AliasForest) :
    ∀ piece ∈ frozen.pieces, piece.HasRoom := by
  obtain ⟨hresults, htrie, hroot⟩ := frozen.sections_in_order
  obtain ⟨hcount, hoffset⟩ := hfits.lt_capacity_four
  have hprefix : (Text.utf8 frozen.config.symbolPrefix).length <
      Bytes.capacity frozen.widths.nameBytes := by
    rw [length_utf8]
    exact hfits.symbolPrefix
  have hend : frozen.layout.trieOffset + (Forest.cons [] frozen.trie.hits frozen.trie.forest
      .nil).byteSize frozen.widths ≤ Bytes.capacity frozen.widths.offsetBytes := by
    rw [← Forest.length_encode _ frozen.layout.trieOffset, ← Trie.encode, trieOffset_add]
    exact hfits.file
  simp only [pieces, headerPieces, typeMapPieces, resultPieces, List.forall_mem_append,
    List.forall_mem_cons]
  refine ⟨⟨⟨trivial, hcount, ?_, ?_, hoffset, List.forall_mem_nil _⟩,
      Widths.hasRoom_namePieces hprefix⟩,
    ⟨?_, ?_⟩, ⟨?_, ?_⟩, ?_⟩
  · exact Nat.lt_of_le_of_lt (Nat.le_trans hresults htrie) hoffset
  · exact Nat.lt_of_le_of_lt htrie hoffset
  · exact Nat.lt_succ_of_le frozen.table.length_typeMap_le
  · intro piece hpiece
    obtain ⟨row, hrow, hpiece⟩ := List.mem_flatMap.mp hpiece
    exact Widths.hasRoom_typeRowPieces (hfits.typeLabels row hrow) piece hpiece
  · rw [List.forall_mem_map]
    intro offset hmem
    exact Nat.lt_of_lt_of_le (Nat.lt_of_le_of_lt (frozen.recordOffset_le hmem) hroot) hfits.file
  · intro piece hpiece
    obtain ⟨entry, hentry, hpiece⟩ := List.mem_flatMap.mp hpiece
    refine Widths.hasRoom_recordPieces hfits.results (hfits.entries entry hentry) ?_ piece hpiece
    obtain ⟨row, hrow, rfl⟩ := List.mem_map.mp hentry
    obtain ⟨id, hid⟩ := List.mem_iff_getElem?.mp hrow
    rw [Array.getElem?_toList] at hid
    exact hforest.target_lt id row hid
  · have hvisits : ∀ v ∈ (Forest.cons [] frozen.trie.hits frozen.trie.forest .nil).visits 0,
        v.Fits frozen.widths frozen.table.size := by
      intro v hv
      refine hfits.nodes v ?_
      rw [Forest.visits, Forest.visits, List.append_nil] at hv
      exact hv
    exact Forest.hasRoom_pieces hfits.results hvisits hend

end Frozen

end PrefixSearch
