import PrefixSearch.Trie.Graft
import Std.Data.TreeMap

/-!
# The prefix tree in an arena

This is a second form of the prefix tree. The nodes stand in one array and are named by their
positions, the root by the first one. No node is ever removed. Where an edge is cut, a node is
appended that takes over the slot of the node below, whose label is shortened. So positions tell in
which order the nodes came to be, and nothing about the tree.
-/

namespace PrefixSearch

/-- The position of a node. -/
abbrev NodeId := Nat

structure ArenaNode where
  label : List UInt8 := []
  /-- The children, under the first bytes of their labels. -/
  children : Std.TreeMap UInt8 NodeId := ∅
  hits : Hits := {}
deriving Repr

/-- A prefix tree whose nodes keep at most `bound` completions. -/
structure Arena where
  bound : Nat
  nodes : Array ArenaNode := #[{}]
deriving Repr

namespace Arena

def root : NodeId := 0

/-- The number of nodes, the root included. -/
def size (a : Arena) : Nat :=
  a.nodes.size

def node (a : Arena) (id : NodeId) : ArenaNode :=
  a.nodes[id]?.getD {}

def label (a : Arena) (id : NodeId) : List UInt8 :=
  (a.node id).label

def child? (a : Arena) (id : NodeId) (byte : UInt8) : Option NodeId :=
  (a.node id).children[byte]?

/-- The children of a node, in the order of the first bytes of their labels. -/
def childrenOf (a : Arena) (id : NodeId) : List NodeId :=
  (a.node id).children.toList.map Prod.snd

def isEmpty (a : Arena) : Bool :=
  (a.node root).children.isEmpty && (a.node root).hits.isEmpty

/-! ## Changes of single nodes -/

def update (id : NodeId) (f : ArenaNode → ArenaNode) (a : Arena) : Arena :=
  { a with nodes := a.nodes.modify id f }

/-- Change what a node finds. -/
def change (f : Hits → Hits) (id : NodeId) (a : Arena) : Arena :=
  a.update id fun node => { node with hits := f node.hits }

/-- Append a node. Its position is the number of nodes there were before. -/
def push (node : ArenaNode) (a : Arena) : Arena :=
  { a with nodes := a.nodes.push node }

/-- Put a node into the slot for the first byte of its label. -/
def link (parent child : NodeId) (a : Arena) : Arena :=
  a.update parent fun node =>
    { node with children := node.children.insert ((a.label child).headD 0) child }

/-- Append a leaf below a node. -/
def grow (parent : NodeId) (label : List UInt8) (a : Arena) : Arena :=
  (a.push { label }).link parent a.size

/-- Take bytes off the front of a node's label. -/
def shorten (id : NodeId) (count : Nat) (a : Arena) : Arena :=
  a.update id fun node => { node with label := node.label.drop count }

/-- Cut the edge to a node after so many bytes. All that is below the new node passes through it,
so it starts with the completions of the node it is put above. -/
def split (parent child : NodeId) (count : Nat) (a : Arena) : Arena :=
  let middle :=
    { label := (a.label child).take count
      hits := { completions := (a.node child).hits.completions } }
  (((a.shorten child count).push middle).link parent a.size).link a.size child

/-- The node that is so many bytes down the edge to a child. A longer edge is cut there. -/
def nodeOnEdge (parent child : NodeId) (count : Nat) (a : Arena) : NodeId × Arena :=
  if count < (a.label child).length then (a.size, a.split parent child count) else (child, a)

/-! ## Building -/

variable [Search]

/-- Go down along a text, cut the edge where the text leaves it, and grow a leaf where there is no
way on. The nodes that are passed are changed by `through`. The node at the end is left for the
caller. -/
def descend (through : Hits → Hits) (start : NodeId) (text : List UInt8) (a : Arena) :
    NodeId × Arena :=
  match text with
  | [] => (start, a)
  | first :: rest =>
      match a.child? start first with
      | none => (a.size, a.grow start (first :: rest))
      | some child =>
          let shared := sharedLength (a.label child) (first :: rest)
          let (next, a) := a.nodeOnEdge start child shared
          -- the slot stands for the first byte
          let after := rest.drop (shared - 1)
          if after = [] then (next, a) else (a.change through next).descend through next after
termination_by text.length

/-- Add a text for a result. Every node on the way gets the result as a completion, and the node at
the end, if asked for, as exact. -/
def insert (table : ResultTable) (term : Term) (a : Arena) : Arena :=
  let finish := Hits.finish table a.bound term.id term.exact
  if term.text = [] then
    a.change finish root
  else
    let complete := Hits.complete table a.bound term.id
    let (last, a) := (a.change complete root).descend complete root term.text
    a.change finish last

/-- Go down along the label of a node of another tree. The node at the end and the node of the
other tree are put on the stack. -/
def graftChild (table : ResultTable) (other : Arena) (target : NodeId)
    (state : List (NodeId × NodeId) × Arena) (child : NodeId) : List (NodeId × NodeId) × Arena :=
  let (waiting, a) := state
  let found := other.node child
  let (last, a) := a.descend (Hits.completeAll table a.bound found.hits) target found.label
  ((last, child) :: waiting, a)

/-- Record at a node all that a node of another tree finds, and go down along the labels of that
node's children. -/
def absorbNode (table : ResultTable) (a other : Arena) (target source : NodeId)
    (waiting : List (NodeId × NodeId)) : List (NodeId × NodeId) × Arena :=
  (other.childrenOf source).foldl (graftChild table other target)
    (waiting, a.change (Hits.absorb table a.bound (other.node source).hits) target)

/-- Work off a stack of nodes, each with a node of another tree, in at most `budget` steps. -/
def mergeFrom (table : ResultTable) (a other : Arena) (budget : Nat)
    (waiting : List (NodeId × NodeId)) : Arena :=
  match budget, waiting with
  | 0, _ => a
  | _, [] => a
  | budget + 1, (target, source) :: waiting =>
      let (waiting, a) := a.absorbNode table other target source waiting
      a.mergeFrom table other budget waiting

/-- Add a tree over the same table to this one. -/
def merge (table : ResultTable) (a other : Arena) : Arena :=
  a.mergeFrom table other other.size [(root, root)]

def mapHits (f : Hits → Hits) (a : Arena) : Arena :=
  { a with nodes := a.nodes.map fun node => { node with hits := f node.hits } }

/-- Put one result into the place of another in every node. -/
def replace (table : ResultTable) (old new : Id) (a : Arena) : Arena :=
  a.mapHits (Hits.replace table a.bound old new)

/-- Put the sets of every node into rank order. -/
def sort (table : ResultTable) (a : Arena) : Arena :=
  a.mapHits (Hits.sort table)

/-! ## Reading -/

/-- What a text finds below a node. A text that ends inside a label finds the completions of the
node below and nothing exactly. -/
def lookupFrom (a : Arena) (id : NodeId) (text : List UInt8) : Hits :=
  match text with
  | [] => (a.node id).hits
  | first :: rest =>
      match a.child? id first with
      | none => {}
      | some child =>
          let label := a.label child
          if label.isPrefixOf (first :: rest) then
            -- the slot stands for the first byte
            a.lookupFrom child (rest.drop (label.length - 1))
          else if (first :: rest).isPrefixOf label then
            { completions := (a.node child).hits.completions }
          else
            {}
termination_by text.length

def lookup (a : Arena) (text : List UInt8) : Hits :=
  a.lookupFrom root text

/-- The nodes on a stack and below them, in depth-first order, at most `budget` of them. -/
def preorderFrom (a : Arena) (budget : Nat) (waiting : List NodeId) : List NodeId :=
  match budget, waiting with
  | 0, _ => []
  | _, [] => []
  | budget + 1, id :: waiting =>
      id :: a.preorderFrom budget (a.childrenOf id ++ waiting)

/-- All nodes in depth-first order, siblings in the order of their first bytes. -/
def preorder (a : Arena) : List NodeId :=
  a.preorderFrom a.size [root]

end Arena

end PrefixSearch
