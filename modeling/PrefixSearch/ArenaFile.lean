import PrefixSearch.ArenaLayout

/-!
# The file of an arena

An index whose tree is in an arena is frozen like any other.  The maxima are taken over the nodes in the
order of their positions, the widths are tried out on the layout of the arena, and the nodes are written
from the arena.  The sections before the tree do not depend on it.
-/

namespace PrefixSearch

/-- An index under construction, its tree in an arena. -/
structure ArenaIndex where
  config : Config
  table : ResultTable
  arena : Arena

namespace ArenaIndex

/-- The index without its tree. -/
def sections (index : ArenaIndex) : Index :=
  { config := index.config, table := index.table, trie := { bound := index.arena.bound } }

def stats (index : ArenaIndex) : Stats :=
  let nodes := index.arena.nodes.toList
  { maxNameLength := maximum
      (index.table.entries.map (fun entry => max entry.nameLength entry.url.utf8ByteSize) ++
        nodes.map (·.label.length) ++
        index.table.typeMap.map (·.label.utf8ByteSize) ++
        [index.config.symbolPrefix.utf8ByteSize])
    maxChildCount := maximum (nodes.map (·.children.size))
    resultCount := index.table.size
    nodeCount := index.arena.size }

/-- Where everything is in a file with the given widths. -/
def layout (index : ArenaIndex) (w : Widths) : Layout :=
  index.arena.layout index.sections w

/-- The index as it is frozen, every set in rank order. -/
def sorted (index : ArenaIndex) : ArenaIndex :=
  { index with arena := index.arena.sort index.table }

end ArenaIndex

/-- An index that no longer changes, its tree in an arena, with the widths of its file. -/
structure FrozenArena extends ArenaIndex where
  widths : Widths

/-- Freeze the index, unless it is too large for the widest format. -/
def ArenaIndex.finalize (index : ArenaIndex) : Except CapacityExceeded FrozenArena := do
  let index := index.sorted
  let widths ← index.config.chooseWidths index.stats fun w => (index.layout w).totalSize
  return { index with widths }

namespace FrozenArena

/-- The frozen index without its tree. -/
def sections (frozen : FrozenArena) : Frozen :=
  { frozen.toArenaIndex.sections with widths := frozen.widths }

/-- The bytes of the file. -/
def encode (frozen : FrozenArena) : List UInt8 :=
  frozen.sections.encodeHeader ++ (frozen.sections.encodeTypeMap ++
    (frozen.sections.encodeResults ++
      frozen.arena.encode frozen.widths (frozen.sections.layoutOf frozen.arena)))

end FrozenArena

end PrefixSearch
