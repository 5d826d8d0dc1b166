import PrefixSearch.Trie.Basic

/-!
# Building a prefix tree

Adding a text and adding a whole tree are one operation: going down along a text, cutting the edge
where the text leaves it, growing a leaf where there is no way on, and changing the nodes that are
passed and the node at the end. Where an edge is cut, everything below the new node passes through
it, so it has the completions of the node below.
-/

namespace PrefixSearch

/-- Whether a text goes before a label in the order of first bytes. -/
def goesBefore (text label : List UInt8) : Bool :=
  text.headD 0 < label.headD 0

namespace Forest

/-- A node whose hits and forest are changed together. -/
def node (label : List UInt8) (inner : Hits × Forest) (next : Forest) : Forest :=
  .cons label inner.1 inner.2 next

/-- Go down along a text that is not empty. The nodes that are passed are changed by `through`, the
node at its end by `finish`. -/
def graft (through : Hits → Hits) (finish : Hits → Forest → Hits × Forest)
    (text : List UInt8) : Forest → Forest
  | .nil => node text (finish {} .nil) .nil
  | .cons label hits below next =>
      let shared := sharedLength label text
      let rest := text.drop shared
      if shared = 0 then
        if goesBefore text label then
          node text (finish {} .nil) (.cons label hits below next)
        else
          .cons label hits below (next.graft through finish text)
      else if shared = label.length then
        if rest = [] then
          node label (finish hits below) next
        else
          .cons label (through hits) (below.graft through finish rest) next
      else
        let tail := label.drop shared
        let middle : Hits := { completions := hits.completions }
        if rest = [] then
          node (label.take shared) (finish middle (.cons tail hits below .nil)) next
        else if goesBefore rest tail then
          .cons (label.take shared) (through middle)
            (node rest (finish {} .nil) (.cons tail hits below .nil)) next
        else
          .cons (label.take shared) (through middle)
            (.cons tail hits below (node rest (finish {} .nil) .nil)) next

end Forest

variable [Search]

namespace Hits

/-- Record a result as a completion. -/
def complete (table : ResultTable) (bound : Nat) (id : Id) (hits : Hits) : Hits :=
  { hits with completions := Ranked.insert table (some bound) id hits.completions }

/-- Record a result that ends here: as a completion and, if asked for, as exact. -/
def finish (table : ResultTable) (bound : Nat) (id : Id) (exact : Bool) (hits : Hits) : Hits :=
  let hits := hits.complete table bound id
  if exact then { hits with exact := Ranked.insert table none id hits.exact } else hits

/-- Record the completions of another node. -/
def completeAll (table : ResultTable) (bound : Nat) (other hits : Hits) : Hits :=
  { hits with
    completions := Ranked.insertAll table (some bound) other.completions hits.completions }

/-- Record all that another node finds. -/
def absorb (table : ResultTable) (bound : Nat) (other hits : Hits) : Hits :=
  { exact := Ranked.insertAll table none other.exact hits.exact
    completions := Ranked.insertAll table (some bound) other.completions hits.completions }

/-- Put one result into the place of another. -/
def replace (table : ResultTable) (bound : Nat) (old new : Id) (hits : Hits) : Hits :=
  { exact := Ranked.replace table none old new hits.exact
    completions := Ranked.replace table (some bound) old new hits.completions }

/-- Put both sets into rank order. -/
def sort (table : ResultTable) (hits : Hits) : Hits :=
  { exact := Ranked.sort table hits.exact
    completions := Ranked.sort table hits.completions }

end Hits

/-- Add all nodes of one forest to another. The nodes of the other that lie strictly inside an edge
receive the completions of the edge's lower end. -/
def Forest.absorb (table : ResultTable) (bound : Nat) : (other mine : Forest) → Forest
  | .nil, mine => mine
  | .cons label hits below next, mine =>
      next.absorb table bound
        (mine.graft (Hits.completeAll table bound hits)
          (fun found forest => (Hits.absorb table bound hits found,
            below.absorb table bound forest))
          label)

/-- A text that leads to a result, exactly or as a completion only. -/
structure Term where
  text : List UInt8
  id : Id
  exact : Bool
deriving DecidableEq, Repr

namespace Trie

/-- Add a text for a result. Every node on the way gets the result as a completion, and the node at
the end, if asked for, as exact. -/
def insert (table : ResultTable) (term : Term) (t : Trie) : Trie :=
  let finish := Hits.finish table t.bound term.id term.exact
  if term.text = [] then
    { t with hits := finish t.hits }
  else
    { t with
      hits := t.hits.complete table t.bound term.id
      forest := t.forest.graft (Hits.complete table t.bound term.id)
        (fun hits forest => (finish hits, forest)) term.text }

/-- `insert`, for a result that is in the table. -/
def insert? (table : ResultTable) (term : Term) (t : Trie) : Option Trie :=
  if term.id < table.size then some (t.insert table term) else none

/-- Add texts, one after the other. -/
def insertAll (table : ResultTable) (terms : List Term) (t : Trie) : Trie :=
  terms.foldl (fun t term => t.insert table term) t

/-- The tree of the texts, if their results are in the table. -/
def ofTerms? (table : ResultTable) (bound : Nat) (terms : List Term) : Option Trie :=
  terms.foldlM (fun t term => t.insert? table term) { bound }

/-- Add a tree over the same table to this one. -/
def merge (table : ResultTable) (t other : Trie) : Trie :=
  { t with
    hits := Hits.absorb table t.bound other.hits t.hits
    forest := other.forest.absorb table t.bound t.forest }

/-- Put one result into the place of another in every node. -/
def replace (table : ResultTable) (old new : Id) (t : Trie) : Trie :=
  t.mapHits (Hits.replace table t.bound old new)

/-- `replace`, for a new result that is in the table, if it gets into any node. -/
def replace? (table : ResultTable) (old new : Id) (t : Trie) : Option Trie :=
  if new < table.size ∨ ¬ t.mentions old then some (t.replace table old new) else none

/-- Put the sets of every node into rank order. -/
def sort (table : ResultTable) (t : Trie) : Trie :=
  t.mapHits (Hits.sort table)

end Trie

end PrefixSearch
