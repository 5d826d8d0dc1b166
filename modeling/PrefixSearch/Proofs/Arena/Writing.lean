import PrefixSearch.Proofs.Arena.Offsets

/-!
# Writing an arena

If the children of every node have the offsets that the forest below it has when it is written right
behind the node, the bytes of the arena are those of the tree that it stores, and in depth-first order
every node begins where the one before it ends.
-/

namespace PrefixSearch

namespace Arena

variable {w : Widths} {layout : Layout} {a : Arena} {t : Trie} {paths : List (List UInt8)}
  {ids : List NodeId} {f below : Forest} {id : NodeId} {start : Nat}

/-! ## One node -/

theorem length_encodeNode (w : Widths) (layout : Layout) (a : Arena) (id : NodeId) :
    (a.encodeNode w layout id).length = a.nodeSize w id := by
  rw [encodeNode, Widths.length_nodeField, List.length_map, Std.TreeMap.length_toList]
  rfl

theorem nodeSize_pos (w : Widths) (a : Arena) (id : NodeId) : 0 < a.nodeSize w id :=
  w.nodeSize_pos _ _ _

/-- The slots of a node, with the offsets of the nodes in them, are references to its children. -/
theorem HasPaths.slots_eq (h : a.HasPaths paths) (layout : Layout) (id : NodeId) :
    ((a.node id).children.toList.map fun slot => (slot.1, layout.nodeOffset slot.2)) =
      a.referencesTo layout.nodeOffset (a.childrenOf id) := by
  rw [referencesTo, childrenOf, List.map_map]
  refine List.map_congr_left fun slot hslot => ?_
  rw [Function.comp_apply, h.headD_label hslot]

/-- A node is written with the references to the forest below it. -/
theorem HasPaths.encodeNode_eq (h : a.HasPaths paths) (hplaced : a.Placed w layout.nodeOffset id)
    (hbelow : a.Reads (a.childrenOf id) below) :
    a.encodeNode w layout id = w.nodeField (a.label id) (a.hits id)
      (below.references w (layout.nodeOffset id + a.nodeSize w id)) := by
  rw [← hplaced below hbelow, ← h.slots_eq]
  rfl

/-! ## All nodes -/

/-- The walk writes the forest of the first nodes on its stack before it comes to the others. -/
theorem Reads.encode_preorderFrom (hreads : a.Reads ids f) (h : a.HasPaths paths)
    (hplaced : ∀ id, a.Placed w layout.nodeOffset id)
    (hids : a.referencesTo layout.nodeOffset ids = f.references w start) (budget : Nat)
    (waiting : List NodeId) :
    (a.preorderFrom (f.size + budget) (ids ++ waiting)).flatMap (a.encodeNode w layout) =
      f.encode w start ++ (a.preorderFrom budget waiting).flatMap (a.encodeNode w layout) := by
  induction hreads generalizing start budget waiting with
  | nil => simp [Forest.size, Forest.encode]
  | @cons id siblings below next hbelow _ ihBelow ihNext =>
      have hsize : (Forest.cons (a.label id) (a.hits id) below next).size + budget =
          below.size + (next.size + budget) + 1 := by
        rw [Forest.size]
        omega
      obtain ⟨hid, hsiblings⟩ := List.cons.inj hids
      obtain rfl : layout.nodeOffset id = start := congrArg Prod.snd hid
      have hinner := hplaced id below hbelow
      rw [hbelow.nodeSize_eq] at hinner
      rw [hsize, List.cons_append, Arena.preorderFrom, List.flatMap_cons, ihBelow hinner,
        ihNext hsiblings, h.encodeNode_eq (hplaced id) hbelow, hbelow.nodeSize_eq, Forest.encode]
      simp only [List.append_assoc]

/-- If the nodes behind a forest are where the one before them ends, so are those of the forest. -/
theorem Reads.positions_preorderFrom (hreads : a.Reads ids f)
    (hplaced : ∀ id, a.Placed w layout.nodeOffset id)
    (hids : a.referencesTo layout.nodeOffset ids = f.references w start) {budget stop : Nat}
    {waiting : List NodeId}
    (hrest : positions (start + f.byteSize w) ((a.preorderFrom budget waiting).map (a.nodeSize w)) =
      (a.preorderFrom budget waiting).map layout.nodeOffset ++ [stop]) :
    positions start ((a.preorderFrom (f.size + budget) (ids ++ waiting)).map (a.nodeSize w)) =
      (a.preorderFrom (f.size + budget) (ids ++ waiting)).map layout.nodeOffset ++ [stop] := by
  induction hreads generalizing start budget waiting with
  | nil => simpa [Forest.size, Forest.byteSize] using hrest
  | @cons id siblings below next hbelow _ ihBelow ihNext =>
      have hsize : (Forest.cons (a.label id) (a.hits id) below next).size + budget =
          below.size + (next.size + budget) + 1 := by
        rw [Forest.size]
        omega
      obtain ⟨hid, hsiblings⟩ := List.cons.inj hids
      obtain rfl : layout.nodeOffset id = start := congrArg Prod.snd hid
      have hinner := hplaced id below hbelow
      rw [Forest.byteSize, ← hbelow.nodeSize_eq, ← Nat.add_assoc, ← Nat.add_assoc] at hrest
      rw [← hbelow.nodeSize_eq] at hsiblings
      rw [hsize, List.cons_append, Arena.preorderFrom, List.map_cons, positions_cons, List.map_cons,
        List.cons_append, ihBelow hinner (ihNext hsiblings hrest)]

namespace Stores

/-- The root with the tree below it, as a forest of one node. -/
theorem reads_root (hstores : a.Stores t) (h : a.HasPaths paths) :
    a.Reads [root] (.cons [] t.hits t.forest .nil) := by
  have hroot : a.Reads [root] (.cons (a.label root) (a.hits root) t.forest .nil) :=
    .cons hstores.reads .nil
  rwa [h.root_label, ← hstores.hits_eq] at hroot

/-- The root refers to itself as the tree does. -/
theorem referencesTo_root (h : a.HasPaths paths) (hroot : layout.nodeOffset root = start)
    (t : Trie) : a.referencesTo layout.nodeOffset [root] =
      (Forest.cons [] t.hits t.forest .nil).references w start := by
  rw [referencesTo, List.map_singleton, h.root_label, hroot]
  rfl

/-- The bytes of the arena are those of the tree. -/
theorem encode_eq (hstores : a.Stores t) (h : a.HasPaths paths)
    (hroot : layout.nodeOffset root = start) (hplaced : ∀ id, a.Placed w layout.nodeOffset id) :
    a.encode w layout = t.encode w start := by
  have hwalk := (hstores.reads_root h).encode_preorderFrom h hplaced (referencesTo_root h hroot t)
    a.size []
  rw [List.append_nil, h.preorderFrom_of_le (Nat.le_add_left _ _), preorderFrom_nil,
    List.flatMap_nil, List.append_nil] at hwalk
  exact hwalk

/-- The measured size of the root is that of the tree. -/
theorem numberAt_root (hstores : a.Stores t) (h : a.HasPaths paths) :
    numberAt (a.subtreeSizes w) root = (Forest.cons [] t.hits t.forest .nil).byteSize w := by
  rw [(h.measured_subtreeSizes w).2 root (h.lt_size h.root_path) t.forest hstores.reads,
    hstores.reads.nodeSize_eq, h.root_label, ← hstores.hits_eq]
  rfl

/-- In depth-first order every node begins where the one before it ends, and the last one ends where
the tree does. -/
theorem positions_eq (hstores : a.Stores t) (h : a.HasPaths paths)
    (hroot : layout.nodeOffset root = start) (hplaced : ∀ id, a.Placed w layout.nodeOffset id) :
    positions start (a.preorder.map (a.nodeSize w)) =
      a.preorder.map layout.nodeOffset ++ [start + numberAt (a.subtreeSizes w) root] := by
  have hbehind : positions (start + (Forest.cons [] t.hits t.forest .nil).byteSize w)
      ((a.preorderFrom a.size []).map (a.nodeSize w)) =
        (a.preorderFrom a.size []).map layout.nodeOffset ++
          [start + numberAt (a.subtreeSizes w) root] := by
    rw [preorderFrom_nil, hstores.numberAt_root h]
    rfl
  have hwalk := (hstores.reads_root h).positions_preorderFrom hplaced (referencesTo_root h hroot t)
    hbehind
  rwa [List.append_nil, h.preorderFrom_of_le (Nat.le_add_left _ _)] at hwalk

end Stores

end Arena

end PrefixSearch
