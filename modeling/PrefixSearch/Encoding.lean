import PrefixSearch.Bytes.Uint
import PrefixSearch.Frozen
import PrefixSearch.Script

/-!
# Search data

The bytes of a frozen index: header, type map, result table and tree. All numbers are little-endian
and have the widths of the file; a text comes after its length. A node refers to its children by
their absolute offsets, which are computed from the sizes of what is written before them.
-/

namespace PrefixSearch

namespace Widths

/-- A text as bytes behind their number. -/
def nameField (w : Widths) (bytes : List UInt8) : List UInt8 :=
  Bytes.uint w.nameBytes bytes.length ++ bytes

def idField (w : Widths) (id : Id) : List UInt8 :=
  Bytes.uint w.idBytes id

def offsetField (w : Widths) (offset : Nat) : List UInt8 :=
  Bytes.uint w.offsetBytes offset

/-- A set of results: their number and their IDs. -/
def idsField (w : Widths) (ids : List Id) : List UInt8 :=
  w.idField ids.length ++ ids.flatMap w.idField

/-- A row of the type map. -/
def typeRowField (w : Widths) (row : TypeRow) : List UInt8 :=
  row.kind.tag :: row.cssClass.code :: w.nameField (Text.utf8 row.label)

/-- A record of the result table. -/
def recordField (w : Widths) (entry : Entry) : List UInt8 :=
  entry.flags.bits :: entry.kind.tag ::
    (w.idField (entry.target.getD w.id.sentinel) ++
      entry.suffixLength :: (w.nameField (Text.utf8 entry.name) ++
        w.nameField (Text.utf8 entry.url)))

/-- A node, given the first bytes and the offsets of its children. -/
def nodeField (w : Widths) (label : List UInt8) (hits : Hits) (children : List (UInt8 × Nat)) :
    List UInt8 :=
  w.nameField label ++
    UInt8.ofNat children.length ::
      (children.flatMap (fun child => child.1 :: w.offsetField child.2) ++
        (w.idsField hits.exact ++ w.idsField hits.completions))

end Widths

namespace Forest

/-- The size of all nodes of a forest. -/
def byteSize (w : Widths) : Forest → Nat
  | .nil => 0
  | .cons label hits below next =>
      w.nodeSize label hits below.firstBytes.length + below.byteSize w + next.byteSize w

/-- The first bytes and the offsets of the topmost nodes of a forest that is written at `start`. -/
def references (w : Widths) (start : Nat) : Forest → List (UInt8 × Nat)
  | .nil => []
  | .cons label hits below next =>
      (label.headD 0, start) ::
        next.references w
          (start + w.nodeSize label hits below.firstBytes.length + below.byteSize w)

/-- The bytes of a forest that is written at `start`. -/
def encode (w : Widths) (start : Nat) : Forest → List UInt8
  | .nil => []
  | .cons label hits below next =>
      let inner := start + w.nodeSize label hits below.firstBytes.length
      w.nodeField label hits (below.references w inner) ++
        (below.encode w inner ++ next.encode w (inner + below.byteSize w))

end Forest

/-- The bytes of a tree that is written at `start`, the root first. -/
def Trie.encode (w : Widths) (start : Nat) (t : Trie) : List UInt8 :=
  Forest.encode w start (.cons [] t.hits t.forest .nil)

/-- What every file begins with. -/
def signature : List UInt8 := [0x4D, 0x43, 0x53]

/-- The bit of the header's flags that says that case does not count. -/
def caseFlag : UInt8 := 1

namespace Frozen

def encodeHeader (frozen : Frozen) : List UInt8 :=
  let layout := frozen.layout
  let w := frozen.widths
  signature ++
    [formatVersion, WidthClass.selector w.name, WidthClass.selector w.id,
      WidthClass.selector w.offset, if frozen.config.caseInsensitive then caseFlag else 0] ++
    Bytes.uint 4 frozen.table.size ++ Bytes.uint 4 layout.typeMapOffset ++
    Bytes.uint 4 layout.resultsOffset ++ Bytes.uint 4 layout.trieOffset ++
    w.nameField (Text.utf8 frozen.config.symbolPrefix)

def encodeTypeMap (frozen : Frozen) : List UInt8 :=
  UInt8.ofNat frozen.typeMap.length :: frozen.typeMap.flatMap frozen.widths.typeRowField

def encodeResults (frozen : Frozen) : List UInt8 :=
  frozen.layout.recordOffsets.flatMap frozen.widths.offsetField ++
    frozen.table.entries.flatMap frozen.widths.recordField

/-- The bytes of the file. -/
def encode (frozen : Frozen) : List UInt8 :=
  frozen.encodeHeader ++ (frozen.encodeTypeMap ++ (frozen.encodeResults ++
    frozen.trie.encode frozen.widths frozen.layout.trieOffset))

/-- The file as a script. -/
def script (frozen : Frozen) : String :=
  Script.encode frozen.encode

end Frozen

end PrefixSearch
