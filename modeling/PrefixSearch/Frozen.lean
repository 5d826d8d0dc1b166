import PrefixSearch.Index

/-!
# The frozen index and its layout

An index is frozen by putting every set into rank order and choosing the widths of the file. The
layout follows from the widths alone: header, type map, result table and tree come one after the
other, and the nodes of the tree in depth-first order. So every offset is known before a byte is
written.

The widths follow from the maxima of what is stored and from how long the file is with given widths.
Names and IDs come first. Then offsets take the narrowest width that reaches the last byte of the
file, which is itself longer with wider offsets.
-/

namespace PrefixSearch

/-- The size of the header's fixed part. -/
def headerSize : Nat := 24

/-- The maxima from which the widths are chosen. -/
structure Stats where
  /-- The greatest length of a name, URL, label or symbol prefix. -/
  maxNameLength : Nat
  maxChildCount : Nat
  resultCount : Nat
  nodeCount : Nat
deriving DecidableEq, Repr

/-- Where everything is in the file. -/
structure Layout where
  typeMapOffset : Nat
  resultsOffset : Nat
  trieOffset : Nat
  /-- The start of each record, and the end of the last one. -/
  recordOffsets : List Nat
  /-- The start of each node, in depth-first order. -/
  nodeOffsets : List Nat
  totalSize : Nat
deriving DecidableEq, Repr

/-- The greatest of some numbers, zero if there is none. -/
def maximum (values : List Nat) : Nat :=
  values.foldl max 0

namespace Index

def stats (index : Index) : Stats :=
  let visits := index.trie.visits
  { maxNameLength := maximum
      (index.table.entries.map (fun entry => max entry.nameLength entry.url.utf8ByteSize) ++
        visits.map (·.label.length) ++
        index.table.typeMap.map (·.label.utf8ByteSize) ++
        [index.config.symbolPrefix.utf8ByteSize])
    maxChildCount := maximum (visits.map (·.children))
    resultCount := index.table.size
    nodeCount := index.trie.size }

end Index

namespace Widths

/-- The size of a record: flags, kind, alias, suffix length, name and URL. -/
def recordSize (w : Widths) (entry : Entry) : Nat :=
  3 + w.idBytes + (w.nameBytes + entry.name.utf8ByteSize) + (w.nameBytes + entry.url.utf8ByteSize)

/-- The size of a row of the type map: tag, category and label. -/
def typeRowSize (w : Widths) (row : TypeRow) : Nat :=
  2 + (w.nameBytes + row.label.utf8ByteSize)

/-- The size of a set: the number of IDs and the IDs. -/
def idsSize (w : Widths) (ids : List Id) : Nat :=
  w.idBytes + w.idBytes * ids.length

/-- The size of a node: label, children and both sets. -/
def nodeSize (w : Widths) (label : List UInt8) (hits : Hits) (children : Nat) : Nat :=
  (w.nameBytes + label.length) + (1 + (1 + w.offsetBytes) * children) +
    w.idsSize hits.exact + w.idsSize hits.completions

end Widths

/-- Put the positions of things of the given sizes, the first of them at `next`, behind `done`
(read backwards). -/
def positionsOnto (done : List Nat) (next : Nat) : List Nat → List Nat
  | [] => (next :: done).reverse
  | size :: sizes => positionsOnto (next :: done) (next + size) sizes

/-- The position behind things of the given sizes that follow one another from `start` on. -/
def positionBehind (start : Nat) (sizes : List Nat) : Nat :=
  sizes.foldl (· + ·) start

/-- The positions of things of the given sizes that follow one another from `start` on, and the
position behind the last. -/
def positions (start : Nat) (sizes : List Nat) : List Nat :=
  positionsOnto [] start sizes

namespace Index

/-- Where everything is in a file with the given widths. -/
def layout (index : Index) (w : Widths) : Layout :=
  let typeMapOffset := headerSize + (w.nameBytes + index.config.symbolPrefix.utf8ByteSize)
  let resultsOffset := positionBehind (typeMapOffset + 1) (index.table.typeMap.map w.typeRowSize)
  let recordOffsets := positions (resultsOffset + (index.table.size + 1) * w.offsetBytes)
    (index.table.entries.map w.recordSize)
  let trieOffset := recordOffsets.getLastD 0
  let nodeEnds := positions trieOffset
    (index.trie.visits.map fun v => w.nodeSize v.label v.hits v.children)
  { typeMapOffset, resultsOffset, trieOffset, recordOffsets
    nodeOffsets := nodeEnds.dropLast
    totalSize := nodeEnds.getLastD 0 }

end Index

/-- An index that no longer changes, with the widths of its file. -/
structure Frozen extends Index where
  widths : Widths

namespace Frozen

def layout (frozen : Frozen) : Layout :=
  frozen.toIndex.layout frozen.widths

def typeMap (frozen : Frozen) : List TypeRow :=
  frozen.table.typeMap

end Frozen

namespace Config

/-- The width of IDs for so many results, all of them below the ID that means "no alias". -/
def selectIdWidth (config : Config) (count : Nat) : Except CapacityExceeded IdWidth :=
  match WidthClass.select (count + 1) config.minIdWidth with
  | .ok w => .ok w
  | .error _ => .error
      { field := .resultCount
        value := count
        max := WidthClass.limit IdWidth - 1 }

/-- The width of offsets, given the size of the file for each of them: the narrowest that reaches
the last byte of the file it makes. -/
def selectOffsetWidth (config : Config) (size : OffsetWidth → Nat) :
    Except CapacityExceeded OffsetWidth :=
  let fits := fun offset => WidthClass.bytes config.minOffsetWidth ≤ WidthClass.bytes offset &&
    size offset - 1 ≤ WidthClass.maxValue offset
  match (WidthClass.all : List OffsetWidth).find? fits with
  | some offset => .ok offset
  | none => .error
      { field := .fileSize
        value := size .bits32
        max := WidthClass.limit OffsetWidth }

/-- The widths, given the maxima and the size of the file for each choice. -/
def chooseWidths (config : Config) (stats : Stats) (size : Widths → Nat) :
    Except CapacityExceeded Widths := do
  if 255 < stats.maxChildCount then
    throw { field := .childCount, value := stats.maxChildCount, max := 255 }
  let name ← WidthClass.select stats.maxNameLength config.minNameWidth
  let id ← config.selectIdWidth stats.resultCount
  let offset ← config.selectOffsetWidth fun offset => size { name, id, offset }
  return { name, id, offset }

end Config

/-- Freeze the index, unless it is too large for the widest format. -/
def Index.finalize (index : Index) : Except CapacityExceeded Frozen := do
  let index := { index with trie := index.trie.sort index.table }
  let widths ← index.config.chooseWidths index.stats fun w => (index.layout w).totalSize
  return { index with widths }

end PrefixSearch
