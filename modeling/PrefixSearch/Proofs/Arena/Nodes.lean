import PrefixSearch.Trie.Arena

/-!
# Single changes of an arena

What an arena shows after a leaf was appended or an edge was cut, position by position.  Labels and
slots are the shape of the tree; what a node finds is changed without touching them.
-/

namespace PrefixSearch

namespace Arena

/-- What a node finds. -/
def hits (a : Arena) (id : NodeId) : Hits :=
  (a.node id).hits

variable {a : Arena} {parent child : NodeId}

theorem node_of_size_le {id : NodeId} (hid : a.size ≤ id) : a.node id = {} := by
  rw [node, Array.getElem?_eq_none hid, Option.getD_none]

theorem child?_of_size_le {id : NodeId} (hid : a.size ≤ id) (byte : UInt8) :
    a.child? id byte = none := by
  rw [child?, node_of_size_le hid]
  rfl

theorem lt_size_of_child? {id : NodeId} {byte : UInt8} (hchild : a.child? id byte = some child) :
    id < a.size := by
  rcases Nat.lt_or_ge id a.size with hid | hid
  · exact hid
  · rw [child?_of_size_le hid] at hchild
    cases hchild

/-! ## One node -/

@[simp] theorem size_update (id : NodeId) (f : ArenaNode → ArenaNode) (a : Arena) :
    (a.update id f).size = a.size := by
  simp [update, size]

theorem node_update (id : NodeId) (f : ArenaNode → ArenaNode) (a : Arena) (other : NodeId) :
    (a.update id f).node other =
      if other = id ∧ id < a.size then f (a.node other) else a.node other := by
  rw [node, update, Array.getElem?_modify]
  by_cases hsame : other = id
  · subst hsame
    by_cases hid : other < a.size
    · rw [if_pos rfl, if_pos ⟨rfl, hid⟩, node, Array.getElem?_eq_getElem hid]
      rfl
    · rw [if_pos rfl, if_neg (fun h => hid h.2), node,
        Array.getElem?_eq_none (Nat.le_of_not_lt hid)]
      rfl
  · rw [if_neg (fun h => hsame h.symm), if_neg (fun h => hsame h.1)]
    rfl

@[simp] theorem size_change (f : Hits → Hits) (id : NodeId) (a : Arena) :
    (a.change f id).size = a.size :=
  size_update id _ a

@[simp] theorem label_change (f : Hits → Hits) (id : NodeId) (a : Arena) (other : NodeId) :
    (a.change f id).label other = a.label other := by
  rw [label, change, node_update]
  split <;> rfl

@[simp] theorem child?_change (f : Hits → Hits) (id : NodeId) (a : Arena) (other : NodeId)
    (byte : UInt8) : (a.change f id).child? other byte = a.child? other byte := by
  rw [child?, change, node_update]
  split <;> rfl

theorem hits_change (f : Hits → Hits) {id : NodeId} (hid : id < a.size) (other : NodeId) :
    (a.change f id).hits other = if other = id then f (a.hits other) else a.hits other := by
  rw [hits, change, node_update]
  by_cases hsame : other = id
  · rw [if_pos ⟨hsame, hid⟩, if_pos hsame]
    rfl
  · rw [if_neg (fun h => hsame h.1), if_neg hsame]
    rfl

@[simp] theorem size_shorten (id : NodeId) (count : Nat) (a : Arena) :
    (a.shorten id count).size = a.size :=
  size_update id _ a

theorem label_shorten (hchild : child < a.size) (count : Nat) (other : NodeId) :
    (a.shorten child count).label other =
      if other = child then (a.label child).drop count else a.label other := by
  rw [label, shorten, node_update]
  by_cases hsame : other = child
  · subst hsame
    rw [if_pos ⟨rfl, hchild⟩, if_pos rfl]
    rfl
  · rw [if_neg (fun h => hsame h.1), if_neg hsame]
    rfl

@[simp] theorem child?_shorten (id : NodeId) (count : Nat) (a : Arena) (other : NodeId)
    (byte : UInt8) : (a.shorten id count).child? other byte = a.child? other byte := by
  rw [child?, shorten, node_update]
  split <;> rfl

@[simp] theorem hits_shorten (id : NodeId) (count : Nat) (a : Arena) (other : NodeId) :
    (a.shorten id count).hits other = a.hits other := by
  rw [hits, shorten, node_update]
  split <;> rfl

@[simp] theorem size_push (new : ArenaNode) (a : Arena) : (a.push new).size = a.size + 1 := by
  simp [push, size]

theorem node_push (new : ArenaNode) (a : Arena) (other : NodeId) :
    (a.push new).node other = if other = a.size then new else a.node other := by
  rw [node, push, Array.getElem?_push]
  by_cases hother : other = a.size
  · rw [if_pos hother, if_pos (show other = a.nodes.size from hother)]
    rfl
  · rw [if_neg hother, if_neg (show ¬ other = a.nodes.size from hother)]
    rfl

theorem label_push (new : ArenaNode) (a : Arena) (other : NodeId) :
    (a.push new).label other = if other = a.size then new.label else a.label other := by
  rw [label, node_push]
  split <;> rfl

theorem hits_push (new : ArenaNode) (a : Arena) (other : NodeId) :
    (a.push new).hits other = if other = a.size then new.hits else a.hits other := by
  rw [hits, node_push]
  split <;> rfl

/-- A new node has no children, and nothing had any at its position before. -/
theorem child?_push (label : List UInt8) (hits : Hits) (a : Arena) (other : NodeId)
    (byte : UInt8) : (a.push { label, hits }).child? other byte = a.child? other byte := by
  rw [child?, node_push]
  split
  · next hother => rw [hother, child?_of_size_le (Nat.le_refl _)]; rfl
  · rfl

@[simp] theorem size_link (parent child : NodeId) (a : Arena) :
    (a.link parent child).size = a.size :=
  size_update parent _ a

@[simp] theorem label_link (parent child : NodeId) (a : Arena) (other : NodeId) :
    (a.link parent child).label other = a.label other := by
  rw [label, link, node_update]
  split <;> rfl

@[simp] theorem hits_link (parent child : NodeId) (a : Arena) (other : NodeId) :
    (a.link parent child).hits other = a.hits other := by
  rw [hits, link, node_update]
  split <;> rfl

theorem child?_link (hparent : parent < a.size) (child other : NodeId) (byte : UInt8) :
    (a.link parent child).child? other byte =
      if other = parent ∧ byte = (a.label child).headD 0 then some child
      else a.child? other byte := by
  rw [child?, link, node_update]
  by_cases hsame : other = parent
  · subst hsame
    have hkey : compare ((a.label child).headD 0) byte = .eq ↔ byte = (a.label child).headD 0 := by
      rw [Std.compare_eq_iff_eq, eq_comm]
    rw [if_pos ⟨rfl, hparent⟩, Std.TreeMap.getElem?_insert]
    simp only [hkey, true_and]
    rfl
  · rw [if_neg (fun h => hsame h.1), if_neg (fun h => hsame h.1)]
    rfl

/-! ## A new leaf -/

@[simp] theorem size_grow (parent : NodeId) (label : List UInt8) (a : Arena) :
    (a.grow parent label).size = a.size + 1 := by
  rw [grow, size_link, size_push]

theorem label_grow (parent : NodeId) (label : List UInt8) (a : Arena) (other : NodeId) :
    (a.grow parent label).label other = if other = a.size then label else a.label other := by
  rw [grow, label_link, label_push]

theorem child?_grow (hparent : parent < a.size) (label : List UInt8) (other : NodeId)
    (byte : UInt8) :
    (a.grow parent label).child? other byte =
      if other = parent ∧ byte = label.headD 0 then some a.size else a.child? other byte := by
  have hinside : parent < (a.push { label }).size := by
    rw [size_push]
    exact Nat.lt_succ_of_lt hparent
  rw [grow, child?_link hinside, child?_push, label_push, if_pos rfl]

theorem hits_grow (parent : NodeId) (label : List UInt8) (a : Arena) (other : NodeId) :
    (a.grow parent label).hits other = if other = a.size then {} else a.hits other := by
  rw [grow, hits_link, hits_push]

/-! ## A cut edge -/

@[simp] theorem size_split (parent child : NodeId) (count : Nat) (a : Arena) :
    (a.split parent child count).size = a.size + 1 := by
  simp [split]

theorem label_split (hchild : child < a.size) (parent : NodeId) (count : Nat) (other : NodeId) :
    (a.split parent child count).label other =
      if other = a.size then (a.label child).take count
      else if other = child then (a.label child).drop count
      else a.label other := by
  rw [split, label_link, label_link, label_push, size_shorten, label_shorten hchild]

theorem hits_split (parent child : NodeId) (count : Nat) (a : Arena) (other : NodeId) :
    (a.split parent child count).hits other =
      if other = a.size then { completions := (a.hits child).completions } else a.hits other := by
  rw [split, hits_link, hits_link, hits_push, size_shorten, hits_shorten]
  rfl

/-- The new node has one child, the node it was put above, and the slot this one had. -/
theorem child?_split (hparent : parent < a.size) (hchild : child < a.size) (count : Nat)
    (other : NodeId) (byte : UInt8) :
    (a.split parent child count).child? other byte =
      if other = a.size ∧ byte = ((a.label child).drop count).headD 0 then some child
      else if other = parent ∧ byte = ((a.label child).take count).headD 0 then some a.size
      else a.child? other byte := by
  have hlower : child ≠ a.size := Nat.ne_of_lt hchild
  have hupper : parent < a.size + 1 := Nat.lt_succ_of_lt hparent
  rw [split, child?_link (by simp), child?_link (by simpa using hupper), child?_push,
    child?_shorten, label_link, label_push, label_push, size_shorten, label_shorten hchild,
    if_pos rfl, if_pos rfl, if_neg hlower]

section

variable {upper lower : List UInt8} {byte next : UInt8}
  (hlabel : a.label child = byte :: upper ++ next :: lower)

include hlabel

/-- The label of the new node and the rest of the one that was cut. -/
theorem label_split_of_eq (hchild : child < a.size) (parent other : NodeId) :
    (a.split parent child (upper.length + 1)).label other =
      if other = a.size then byte :: upper else if other = child then next :: lower
      else a.label other := by
  rw [label_split hchild, hlabel, ← List.length_cons (a := byte), List.take_left, List.drop_left]

theorem child?_split_of_eq (hparent : parent < a.size) (hchild : child < a.size) (other : NodeId)
    (first : UInt8) :
    (a.split parent child (upper.length + 1)).child? other first =
      if other = a.size ∧ first = next then some child
      else if other = parent ∧ first = byte then some a.size else a.child? other first := by
  rw [child?_split hparent hchild, hlabel, ← List.length_cons (a := byte), List.take_left,
    List.drop_left]
  rfl

end

/-! ## All nodes -/

section

variable {f : Hits → Hits} (hnone : f {} = {})

include hnone

/-- Where there is no node, nothing is found, before and after. -/
theorem node_mapHits (a : Arena) (id : NodeId) :
    (a.mapHits f).node id = { a.node id with hits := f (a.node id).hits } := by
  rw [node, mapHits, Array.getElem?_map]
  by_cases hid : id < a.nodes.size
  · rw [node, Array.getElem?_eq_getElem hid]
    rfl
  · rw [node_of_size_le (Nat.le_of_not_lt hid), Array.getElem?_eq_none (Nat.le_of_not_lt hid)]
    show ({} : ArenaNode) = { ({} : ArenaNode) with hits := f {} }
    rw [hnone]

theorem label_mapHits (a : Arena) (id : NodeId) : (a.mapHits f).label id = a.label id := by
  rw [label, node_mapHits hnone, label]

theorem hits_mapHits (a : Arena) (id : NodeId) : (a.mapHits f).hits id = f (a.hits id) := by
  rw [hits, node_mapHits hnone, hits]

theorem child?_mapHits (a : Arena) (id : NodeId) (byte : UInt8) :
    (a.mapHits f).child? id byte = a.child? id byte := by
  rw [child?, node_mapHits hnone, child?]

theorem childrenOf_mapHits (a : Arena) (id : NodeId) :
    (a.mapHits f).childrenOf id = a.childrenOf id := by
  rw [childrenOf, node_mapHits hnone, childrenOf]

end

end Arena

end PrefixSearch
