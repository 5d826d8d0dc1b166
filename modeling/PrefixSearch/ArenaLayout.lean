import PrefixSearch.Encoding
import PrefixSearch.Trie.Arena

/-!
# The layout of an arena

The nodes of an arena stand in the order in which they came to be, so their offsets are kept in tables
with a row for each position.  One pass goes from the children to the parents and adds up how many bytes
a node takes with all that is below it.  Another one goes from the root to the children and puts the
children of a node one after the other behind it.  Then the nodes are written in depth-first order, each
with the offsets that the table has for its children.
-/

namespace PrefixSearch

/-- The number in the row of a table, zero if there is no such row. -/
def numberAt (table : Array Nat) (id : NodeId) : Nat :=
  table[id]?.getD 0

namespace Layout

/-- The greatest offset that four bytes can store. -/
def maxOffset : Nat := Bytes.capacity 4 - 1

/-- An offset, cut off where four bytes do not suffice. -/
def narrow (offset : Nat) : Nat :=
  min offset maxOffset

/-- The layout as the encoder uses it, all its offsets cut off where four bytes do not suffice. -/
def narrowed (layout : Layout) : Layout :=
  { typeMapOffset := narrow layout.typeMapOffset
    resultsOffset := narrow layout.resultsOffset
    trieOffset := narrow layout.trieOffset
    recordOffsets := layout.recordOffsets.map narrow
    nodeOffsets := layout.nodeOffsets.map narrow
    totalSize := layout.totalSize }

/-- The offset at a position of the table of nodes. -/
def nodeOffset (layout : Layout) (id : NodeId) : Nat :=
  layout.nodeOffsets[id]?.getD 0

end Layout

namespace Arena

/-- The size of a node. -/
def nodeSize (w : Widths) (a : Arena) (id : NodeId) : Nat :=
  let node := a.node id
  w.nodeSize node.label node.hits node.children.size

/-! ## From the children to the parents -/

/-- Enter the size of a node with all that is below it, which the table has for its children. -/
def measure (w : Widths) (a : Arena) (sizes : Array Nat) (id : NodeId) : Array Nat :=
  sizes.setIfInBounds id
    (positionBehind (a.nodeSize w id) ((a.childrenOf id).map (numberAt sizes)))

/-- The sizes of all nodes, each with all that is below it. -/
def subtreeSizes (w : Widths) (a : Arena) : Array Nat :=
  a.preorder.reverse.foldl (a.measure w) (Array.replicate a.size 0)

/-! ## From the root to the children -/

/-- Put a child at the next free offset and onto the stack. -/
def placeChild (sizes : Array Nat) (state : Nat × List NodeId × Array Nat) (child : NodeId) :
    Nat × List NodeId × Array Nat :=
  let (next, waiting, offsets) := state
  (next + numberAt sizes child, child :: waiting, offsets.setIfInBounds child next)

/-- Put the children of a node behind it, one after the other. -/
def placeChildren (w : Widths) (a : Arena) (sizes : Array Nat) (id : NodeId)
    (waiting : List NodeId) (offsets : Array Nat) : List NodeId × Array Nat :=
  ((a.childrenOf id).foldl (placeChild sizes)
    (numberAt offsets id + a.nodeSize w id, waiting, offsets)).2

/-- Work off a stack of nodes, the children of which have no offsets yet, in at most `budget`
steps. -/
def placeFrom (w : Widths) (a : Arena) (sizes : Array Nat) (budget : Nat)
    (waiting : List NodeId) (offsets : Array Nat) : Array Nat :=
  match budget, waiting with
  | 0, _ => offsets
  | _, [] => offsets
  | budget + 1, id :: waiting =>
      let (waiting, offsets) := a.placeChildren w sizes id waiting offsets
      a.placeFrom w sizes budget waiting offsets

/-- The offsets of all nodes if the root is at `start`. -/
def offsetsAt (w : Widths) (start : Nat) (a : Arena) : Array Nat :=
  a.placeFrom w (a.subtreeSizes w) a.size [root]
    ((Array.replicate a.size 0).setIfInBounds root start)

/-- Where everything is in the file of an index whose tree is in the arena.  The offsets of the nodes
stand at their positions in the arena. -/
def layout (index : Index) (w : Widths) (a : Arena) : Layout :=
  let sections := index.layout w
  { sections with
    nodeOffsets := (a.offsetsAt w sections.trieOffset).toList
    totalSize := sections.trieOffset + numberAt (a.subtreeSizes w) root }

/-! ## Writing -/

/-- The bytes of a node. -/
def encodeNode (w : Widths) (layout : Layout) (a : Arena) (id : NodeId) : List UInt8 :=
  let node := a.node id
  w.nodeField node.label node.hits
    (node.children.toList.map fun (byte, child) => (byte, layout.nodeOffset child))

/-- The bytes of all nodes, in depth-first order. -/
def encode (w : Widths) (layout : Layout) (a : Arena) : List UInt8 :=
  a.preorder.flatMap (a.encodeNode w layout)

end Arena

namespace Frozen

/-- The layout that the encoder uses for a frozen index whose tree is in the arena. -/
def layoutOf (frozen : Frozen) (a : Arena) : Layout :=
  (a.layout frozen.toIndex frozen.widths).narrowed

end Frozen

end PrefixSearch
