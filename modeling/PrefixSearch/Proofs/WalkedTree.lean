import PrefixSearch.Proofs.Arena.AnyTree
import PrefixSearch.Proofs.Arena.SameFile
import PrefixSearch.Proofs.ChosenWidths
import PrefixSearch.Proofs.HostileWalk
import PrefixSearch.Proofs.LongerData
import PrefixSearch.Report.Summary

/-!
# Walks through the bytes of an index

The bytes of an index have its nodes in depth-first order, each of them where its parent says.  A walk
through them has a stack of offsets where the walk through the nodes has a stack of nodes, and the one is
always what the layout makes of the other.  Every node has a byte at least, so there are visits enough.
-/

namespace PrefixSearch

/-- Things that have a byte each take as many bytes as they are. -/
theorem length_le_positionBehind (start : Nat) {sizes : List Nat} (hsizes : ∀ size ∈ sizes, 0 < size) :
    start + sizes.length ≤ positionBehind start sizes := by
  induction sizes generalizing start with
  | nil => exact Nat.le_refl start
  | cons size sizes ih =>
      rw [List.forall_mem_cons] at hsizes
      have hrest := ih (start + size) hsizes.2
      rw [positionBehind_cons, List.length_cons]
      omega

namespace Arena

variable {a : Arena} {paths : List (List UInt8)} {layout : Layout} {id : NodeId}

/-- A node as it is stored at its place in the layout. -/
def storedNode (layout : Layout) (a : Arena) (id : NodeId) : StoredNode :=
  { offset := layout.nodeOffset id
    label := a.label id
    children := a.referencesTo layout.nodeOffset (a.childrenOf id)
    hits := a.hits id }

/-- The first bytes of the children are in strictly rising order. -/
theorem HasPaths.sorted_storedNode (h : a.HasPaths paths) (layout : Layout) (id : NodeId) :
    ((a.storedNode layout id).children.map Prod.fst).Pairwise (· < ·) := by
  rw [storedNode, referencesTo, List.map_map, List.pairwise_map]
  exact h.sorted_childrenOf id

/-! ## Depths -/

/-- The depth of a node is the number of slots that lead to it. -/
def HasDepths (a : Arena) (depth : NodeId → Nat) : Prop :=
  ∀ keys path id, a.Leads keys path id → depth id = keys.length

theorem HasPaths.exists_hasDepths (h : a.HasPaths paths) : ∃ depth, a.HasDepths depth := by
  have hdepth : ∀ id, ∃ depth, ∀ keys path, a.Leads keys path id → depth = keys.length := by
    intro id
    by_cases hreached : ∃ keys path, a.Leads keys path id
    · obtain ⟨keys, path, hleads⟩ := hreached
      exact ⟨keys.length, fun keys' path' hother => by rw [h.keys_unique hleads hother]⟩
    · exact ⟨0, fun keys path hleads => absurd ⟨keys, path, hleads⟩ hreached⟩
  choose depth hdepth using hdepth
  exact ⟨depth, fun keys path id hleads => hdepth id keys path hleads⟩

theorem HasDepths.root {depth : NodeId → Nat} (hdepth : a.HasDepths depth) : depth root = 0 :=
  hdepth [] _ _ .root

/-- A child is one deeper than its parent. -/
theorem HasDepths.child {depth : NodeId → Nat} (hdepth : a.HasDepths depth) (h : a.HasPaths paths)
    {child : NodeId} (hchild : child ∈ a.childrenOf id) : depth child = depth id + 1 := by
  obtain ⟨byte, hslot⟩ := mem_childrenOf.mp hchild
  obtain ⟨path, hpath⟩ := h.exists_path (lt_size_of_child? hslot)
  obtain ⟨keys, hkeys⟩ := h.exists_leads hpath
  rw [hdepth _ _ _ hkeys, hdepth _ _ _ (.child hkeys hslot), List.length_append]
  rfl

/-! ## The walk -/

/-- A walk through data that has the nodes of an arena at their places visits them in the order in which a
walk over the arena takes them. -/
theorem Frontier.traceFrom_eq {d : SearchData} (h : a.HasPaths paths)
    (hnodes : ∀ id < a.size, d.node (layout.nodeOffset id) = .ok (a.storedNode layout id))
    {depth : NodeId → Nat} (hdepth : a.HasDepths depth) {done waiting : List NodeId} {budget : Nat}
    (hfrontier : a.Frontier done waiting) (hbudget : a.size ≤ done.length + budget) :
    d.traceFrom budget (waiting.map fun id => (depth id, layout.nodeOffset id)) =
      ((a.preorderFrom budget waiting).map fun id => (depth id, a.storedNode layout id), .ok ()) := by
  induction budget generalizing done waiting with
  | zero =>
      rw [hfrontier.waiting_eq_nil hbudget]
      rfl
  | succ budget ih =>
      cases waiting with
      | nil => rfl
      | cons id waiting =>
          have hid : id < a.size := hfrontier.inside id (by simp)
          have hchildren : (a.storedNode layout id).children.map (fun child => (depth id + 1, child.2)) =
              (a.childrenOf id).map fun child => (depth child, layout.nodeOffset child) := by
            rw [storedNode, referencesTo, List.map_map]
            exact List.map_congr_left fun child hchild => by
              rw [Function.comp_apply, hdepth.child h hchild]
          have hrest := ih (hfrontier.step h (List.Perm.refl _)) (by simp; omega)
          rw [List.map_cons, SearchData.traceFrom_of_node (hnodes id hid), hchildren,
            ← List.map_append, hrest, Arena.preorderFrom, List.map_cons]

theorem HasPaths.traceFrom_eq {d : SearchData} (h : a.HasPaths paths)
    (hnodes : ∀ id < a.size, d.node (layout.nodeOffset id) = .ok (a.storedNode layout id))
    {depth : NodeId → Nat} (hdepth : a.HasDepths depth) {budget : Nat} (hbudget : a.size ≤ budget) :
    d.traceFrom budget [(0, layout.nodeOffset root)] =
      (a.preorder.map fun id => (depth id, a.storedNode layout id), .ok ()) := by
  have hsteps : a.size ≤ ([] : List NodeId).length + budget := by
    rwa [List.length_nil, Nat.zero_add]
  have hwalk := (Frontier.start h).traceFrom_eq h hnodes hdepth hsteps
  rwa [List.map_singleton, hdepth.root, h.preorderFrom_of_le hbudget] at hwalk

end Arena

namespace Frozen

variable {frozen : Frozen} {a : Arena} {paths : List (List UInt8)}

/-- What is stored at a node has room in the file. -/
theorem Fits.visit_fits (hfits : frozen.Fits) (hstores : a.Stores frozen.trie) (h : a.HasPaths paths)
    {id : NodeId} (hid : id < a.size) :
    (a.label id).length < Bytes.capacity frozen.widths.nameBytes ∧
      (a.childrenOf id).length ≤ 255 ∧ (a.hits id).Within frozen.table.size := by
  have hshown := List.mem_map_of_mem (f := a.shown) (h.mem_preorder.mpr hid)
  rw [← hstores.visits_eq h] at hshown
  obtain ⟨v, hv, heq⟩ := List.mem_map.mp hshown
  simp only [Arena.shown, Prod.mk.injEq] at heq
  obtain ⟨hlabel, hhits, hchildren⟩ := heq
  rw [← hlabel, ← hhits, ← hchildren]
  exact ⟨(hfits.nodes v hv).label, (hfits.nodes v hv).children, (hfits.nodes v hv).hits⟩

theorem trieOffset_le (hstores : a.Stores frozen.trie) (h : a.HasPaths paths) {id : NodeId}
    (hid : id < a.size) :
    frozen.layout.trieOffset ≤ (a.layout frozen.toIndex frozen.widths).nodeOffset id := by
  obtain ⟨i, hi⟩ := List.mem_iff_getElem?.mp (h.mem_preorder.mpr hid)
  rw [← positionBehind_nodes hstores h hi]
  exact le_positionBehind _ _

/-- Every node is read back from its place. -/
theorem Fits.node_eq (hfits : frozen.Fits) (hstores : a.Stores frozen.trie) (h : a.HasPaths paths)
    {id : NodeId} (hid : id < a.size) :
    frozen.reopened.node ((a.layout frozen.toIndex frozen.widths).nodeOffset id) =
      .ok (a.storedNode (a.layout frozen.toIndex frozen.widths) id) := by
  obtain ⟨hlabel, hcount, hhits⟩ := hfits.visit_fits hstores h hid
  have hbytes := holds_node hstores h hid
  rw [Arena.encodeNode, h.slots_eq] at hbytes
  refine hfits.roomy.node_eq hbytes (trieOffset_le hstores h hid) hlabel ?_ hhits ?_
  · rwa [Arena.referencesTo, List.length_map]
  · intro reference hreference
    obtain ⟨child, hchild, rfl⟩ := List.mem_map.mp hreference
    obtain ⟨hbehind, hinside⟩ := (nodesAt hstores h).children id child hchild
    refine ⟨hbehind, ?_⟩
    rwa [size_reopened, ← length_encode]

/-- The tree has at least as many bytes as nodes. -/
theorem size_le (hstores : a.Stores frozen.trie) (h : a.HasPaths paths) :
    a.size ≤ frozen.reopened.size - frozen.reopened.trieOffset := by
  have hsizes : ∀ size ∈ a.preorder.map (a.nodeSize frozen.widths), 0 < size :=
    List.forall_mem_map.mpr fun id _ => a.nodeSize_pos frozen.widths id
  have hbytes := length_le_positionBehind frozen.layout.trieOffset hsizes
  have htotal : (a.layout frozen.toIndex frozen.widths).totalSize = frozen.layout.totalSize := by
    rw [hstores.layout_eq h]
    rfl
  -- the last node ends where the file does
  have hend : positionBehind frozen.layout.trieOffset (a.preorder.map (a.nodeSize frozen.widths)) =
      frozen.layout.totalSize := by
    have hpositions := congrArg (List.getLastD · 0) (nodesAt hstores h).positions_eq
    rw [getLastD_positions] at hpositions
    rw [← htotal]
    exact hpositions.trans (List.getLastD_concat ..)
  rw [hend, List.length_map, h.length_preorder] at hbytes
  rw [size_reopened]
  exact Nat.le_sub_of_add_le' hbytes

end Frozen

/-! ## The shape that is counted -/

theorem TrieShape.foldl_visit (seen : List (Nat × StoredNode)) (shape : TrieShape) :
    seen.foldl (fun shape v => shape.visit v.1 v.2) shape =
      { nodeCount := shape.nodeCount + seen.length
        maxDepth := (seen.map (·.1)).foldl max shape.maxDepth
        maxChildren := (seen.map (·.2.children.length)).foldl max shape.maxChildren
        maxExact := (seen.map (·.2.hits.exact.length)).foldl max shape.maxExact
        maxCompletions := (seen.map (·.2.hits.completions.length)).foldl max shape.maxCompletions
        maxLabel := (seen.map (·.2.label.length)).foldl max shape.maxLabel } := by
  induction seen generalizing shape with
  | nil => rfl
  | cons v seen ih =>
      rw [List.foldl_cons, ih, List.length_cons, ← Nat.add_assoc, Nat.add_right_comm]
      rfl

namespace Frozen

variable {frozen : Frozen} {a : Arena} {paths : List (List UInt8)} {depth : NodeId → Nat}

/-- The walk through the bytes, whatever follows them. -/
theorem Fits.trace_eq (hfits : frozen.Fits) (hstores : a.Stores frozen.trie) (h : a.HasPaths paths)
    (hdepth : a.HasDepths depth) (more : Array UInt8) :
    (frozen.reopened.followedBy more).trace =
      (a.preorder.map fun id => (depth id, a.storedNode (a.layout frozen.toIndex frozen.widths) id),
        .ok ()) := by
  obtain ⟨hroot, -⟩ := h.placed_layout frozen.toIndex frozen.widths
  have hbudget : a.size ≤ (frozen.reopened.followedBy more).size - frozen.reopened.trieOffset := by
    rw [SearchData.size_followedBy]
    exact Nat.le_trans (size_le hstores h) (Nat.sub_le_sub_right (Nat.le_add_right _ _) _)
  have hnodes : ∀ id < a.size, (frozen.reopened.followedBy more).node
      ((a.layout frozen.toIndex frozen.widths).nodeOffset id) =
        .ok (a.storedNode (a.layout frozen.toIndex frozen.widths) id) := fun id hid =>
    SearchData.node_followedBy (hfits.node_eq hstores h hid)
  have hwalk := h.traceFrom_eq hnodes hdepth hbudget
  rw [hroot] at hwalk
  exact hwalk

/-- The shape that is counted is that of the tree. -/
theorem Fits.trieShape_eq (hfits : frozen.Fits) (hstores : a.Stores frozen.trie) (h : a.HasPaths paths)
    (hdepth : a.HasDepths depth) (more : Array UInt8) :
    (frozen.reopened.followedBy more).trieShape = .ok
      { nodeCount := frozen.stats.nodeCount
        maxDepth := maximum (a.preorder.map depth)
        maxChildren := frozen.stats.maxChildCount
        maxExact := maximum (a.preorder.map fun id => (a.hits id).exact.length)
        maxCompletions := maximum (a.preorder.map fun id => (a.hits id).completions.length)
        maxLabel := maximum (a.preorder.map fun id => (a.label id).length) } := by
  have hchildren : frozen.trie.visits.map (·.children) =
      a.preorder.map fun id => (a.childrenOf id).length := by
    have hshown := congrArg (List.map (·.2.2)) (hstores.visits_eq h)
    rwa [List.map_map, List.map_map] at hshown
  have hcount : frozen.stats.nodeCount = a.preorder.length := by
    rw [h.length_preorder, hstores.size_eq h]
    rfl
  rw [SearchData.trieShape, SearchData.walk_eq, hfits.trace_eq hstores h hdepth, hcount]
  refine congrArg Except.ok ?_
  rw [TrieShape.foldl_visit]
  simp only [List.map_map, List.length_map, Nat.zero_add, Index.stats, hchildren, maximum]
  simp only [Function.comp_def, Arena.storedNode, Arena.referencesTo, List.length_map]

end Frozen

namespace Index

variable {config : Config} {index : Index} {frozen : Frozen}

/-- Whatever an index was made by, a walk through the bytes that it is frozen to, also with more bytes
behind them, does not fail.  It visits the nodes in the depth-first order of every arena that stores the
tree, each of them once, with its depth and as it is stored at its place in the layout, and the first
bytes of the children rise strictly.  So the shape that is counted is that of the tree. -/
theorem Made.walk_eq_preorder [Search] (hmade : Made config index)
    (hfinal : index.finalize = .ok frozen) :
    (∃ a paths, Arena.HasPaths a paths ∧ a.Stores frozen.trie) ∧
    ∀ (a : Arena) (paths : List (List UInt8)), a.HasPaths paths → a.Stores frozen.trie →
      a.preorder.Perm (List.range a.size) ∧
      (∀ id, ((a.storedNode (frozen.layoutOf a) id).children.map Prod.fst).Pairwise (· < ·)) ∧
      ∃ depth, a.HasDepths depth ∧ ∀ more : List UInt8, ∃ d,
        SearchData.parse (frozen.encode ++ more).toArray = .ok d ∧
        (∀ {σ : Type} (visit : σ → Nat → StoredNode → σ) (state : σ),
          d.walk visit state = .ok (a.preorder.foldl
            (fun state id => visit state (depth id) (a.storedNode (frozen.layoutOf a) id)) state)) ∧
        d.trieShape = .ok
          { nodeCount := frozen.stats.nodeCount
            maxDepth := maximum (a.preorder.map depth)
            maxChildren := frozen.stats.maxChildCount
            maxExact := maximum (a.preorder.map fun id => (a.hits id).exact.length)
            maxCompletions := maximum (a.preorder.map fun id => (a.hits id).completions.length)
            maxLabel := maximum (a.preorder.map fun id => (a.label id).length) } := by
  have hfits : frozen.Fits := hmade.sound.fits hfinal
  refine ⟨Arena.exists_stores hfits.wellFormed, fun a paths h hstores => ?_⟩
  rw [Frozen.layoutOf_eq hfits.file hstores h]
  obtain ⟨depth, hdepth⟩ := h.exists_hasDepths
  refine ⟨h.perm_preorder, h.sorted_storedNode _, depth, hdepth, fun more => ?_⟩
  have hparse := SearchData.parse_append hfits.parse_eq more.toArray
  rw [List.append_toArray] at hparse
  refine ⟨_, hparse, fun visit state => ?_, hfits.trieShape_eq hstores h hdepth _⟩
  rw [SearchData.walk_eq, hfits.trace_eq hstores h hdepth, List.foldl_map]
  rfl

/-- A byte behind the file changes nothing: the node for "foo" comes before the one below it, which is in
front of it in the arena. -/
theorem Made.walk_eq_preorder_partingNames :
    ∃ index frozen d, Index.build {} false partingNames = .ok index ∧ index.finalize = .ok frozen ∧
      SearchData.parse (frozen.encode ++ [0]).toArray = .ok d ∧
      d.walk (fun seen depth node => seen ++ [(depth, node.offset)]) [] =
        .ok [(0, 101), (1, 121), (1, 132), (2, 151)] ∧
      ∃ shape, d.trieShape = .ok shape ∧ shape.nodeCount = 4 ∧ shape.maxChildren = 2 := by
  have hfacts : (((empty {}).registerAll partingNames).toOption.bind fun state =>
      (Index.build {} false partingNames).toOption.bind fun index =>
        index.finalize.toOption.map fun frozen =>
          let a := state.2.arenaWith state.1
          (a.preorder, (frozen.layoutOf a).nodeOffsets,
            [a.child? 0 98, a.child? 0 102, a.child? 3 98],
            [frozen.stats.nodeCount, frozen.stats.maxChildCount])) =
      some ([0, 2, 3, 1], [101, 151, 121, 132], [some 2, some 3, some 1], [4, 2]) := by
    decide +kernel
  obtain ⟨⟨terms, last⟩, hregister, hfacts⟩ := Option.bind_eq_some_iff.mp hfacts
  obtain ⟨index, hbuild, hfacts⟩ := Option.bind_eq_some_iff.mp hfacts
  obtain ⟨frozen, hfinal, hfacts⟩ := Option.map_eq_some_iff.mp hfacts
  rw [toOption_eq_some] at hregister hbuild hfinal
  simp only [Prod.mk.injEq, List.cons.injEq, and_true] at hfacts
  obtain ⟨hpreorder, hoffsets, ⟨hsecond, hthird, hfirst⟩, hcount, hchildren⟩ := hfacts
  have halike : Arena.Alike (last.arenaWith terms) frozen.trie := by
    rw [(finalize_eq_ok hfinal).1]
    cases (addAll_of_registerAll hregister).symm.trans hbuild
    exact last.alike_arenaWith terms
  obtain ⟨paths, hpaths, hstores⟩ := halike.stores
  have hmade : Made {} index := .build hbuild
  obtain ⟨-, hall⟩ := Made.walk_eq_preorder hmade hfinal
  obtain ⟨-, -, depth, hdepth, hmore⟩ := hall _ paths hpaths hstores
  obtain ⟨d, hparse, hwalk, hshape⟩ := hmore [0]
  have hthirdLeads := Arena.Leads.child .root hthird
  have h0 : depth 0 = 0 := hdepth _ _ _ .root
  have h2 : depth 2 = 1 := hdepth _ _ _ (.child .root hsecond)
  have h3 : depth 3 = 1 := hdepth _ _ _ hthirdLeads
  have h1 : depth 1 = 2 := hdepth _ _ _ (.child hthirdLeads hfirst)
  refine ⟨index, frozen, d, hbuild, hfinal, hparse, ?_, _, hshape, hcount, hchildren⟩
  rw [hwalk, hpreorder]
  simp only [List.foldl_cons, List.foldl_nil, Arena.storedNode, Layout.nodeOffset, hoffsets, h0, h1,
    h2, h3]
  rfl

end Index

end PrefixSearch
