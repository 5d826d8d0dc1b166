import PrefixSearch.RankedSet

/-!
# The compressed prefix tree

Texts are byte strings. An edge carries a non-empty label, and the labels of two siblings differ in
their first byte, so a text has at most one way down. A node keeps what its path finds: the results
whose text is the path, and the best of those whose text begins with it.

The nodes below a node form a forest, written as first child and next sibling, siblings in the
order of their first bytes. The depth-first order of the nodes is then the order in which the
forest is written down.
-/

namespace PrefixSearch

/-- The number of bytes that two texts share at the front. -/
def sharedLength (a b : List UInt8) : Nat :=
  ((a.zip b).takeWhile fun pair => pair.1 == pair.2).length

/-- The nodes below a node. -/
inductive Forest where
  | nil
  /-- A node with the label that leads to it, what it finds, the nodes below it and its further
  siblings. -/
  | cons (label : List UInt8) (hits : Hits) (below next : Forest)
deriving DecidableEq, Repr, Inhabited

/-- A node as a walk in depth-first order comes by it. -/
structure Visit where
  depth : Nat
  label : List UInt8
  hits : Hits
  /-- The number of children. -/
  children : Nat
deriving DecidableEq, Repr

namespace Forest

/-- The number of nodes. -/
def size : Forest → Nat
  | .nil => 0
  | .cons _ _ below next => below.size + next.size + 1

/-- The first bytes of the labels of the topmost nodes. -/
def firstBytes : Forest → List UInt8
  | .nil => []
  | .cons label _ _ next => label.headD 0 :: next.firstBytes

/-- The nodes in depth-first order. -/
def visits (depth : Nat) : Forest → List Visit
  | .nil => []
  | .cons label hits below next =>
      { depth, label, hits, children := below.firstBytes.length } ::
        (below.visits (depth + 1) ++ next.visits depth)

/-- Change what every node finds. -/
def mapHits (f : Hits → Hits) : Forest → Forest
  | .nil => .nil
  | .cons label hits below next => .cons label (f hits) (below.mapHits f) (next.mapHits f)

/-- What a text that is not empty finds. A text that ends inside a label finds the completions of
the node below and nothing exactly. -/
def lookup (text : List UInt8) : Forest → Hits
  | .nil => {}
  | .cons label hits below next =>
      let shared := sharedLength label text
      if shared = 0 then
        next.lookup text
      else if shared = label.length then
        if shared = text.length then hits else below.lookup (text.drop shared)
      else if shared = text.length then
        { completions := hits.completions }
      else
        {}

end Forest

/-- A prefix tree whose nodes keep at most `bound` completions. -/
structure Trie where
  bound : Nat
  hits : Hits := {}
  forest : Forest := .nil
deriving DecidableEq, Repr, Inhabited

namespace Trie

/-- The number of nodes, the root included. -/
def size (t : Trie) : Nat :=
  t.forest.size + 1

def isEmpty (t : Trie) : Bool :=
  t.hits.isEmpty && t.forest.firstBytes.isEmpty

/-- All nodes in depth-first order, the root first. -/
def visits (t : Trie) : List Visit :=
  { depth := 0, label := [], hits := t.hits, children := t.forest.firstBytes.length } ::
    t.forest.visits 1

def mapHits (f : Hits → Hits) (t : Trie) : Trie :=
  { t with hits := f t.hits, forest := t.forest.mapHits f }

/-- What a text finds. -/
def lookup (t : Trie) (text : List UInt8) : Hits :=
  if text = [] then t.hits else t.forest.lookup text

/-- Whether some node finds the result. -/
def mentions (t : Trie) (id : Id) : Bool :=
  t.visits.any fun v => v.hits.exact.contains id || v.hits.completions.contains id

end Trie

end PrefixSearch
