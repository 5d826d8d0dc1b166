import PrefixSearch.ArenaLayout
import PrefixSearch.Proofs.Arena.Reading
import PrefixSearch.Proofs.Layout

/-!
# The tables of sizes and offsets

The pass from the children to the parents goes over the depth-first order backwards, and there a node
stands before its children.  So the children of a node are measured when their sizes are added up, and
the sum is the size of the forest that is read below the node.

The pass from the root to the children works off a stack from its last node on, so it comes by the nodes
in another order than the one in which they are written.  That does no harm: the offsets of the children
depend on the offset of their parent and on the measured sizes alone, and no node gets an offset twice.
-/

namespace PrefixSearch

theorem numberAt_setIfInBounds {table : Array Nat} {id : NodeId} (hid : id < table.size)
    (value : Nat) (other : NodeId) :
    numberAt (table.setIfInBounds id value) other =
      if other = id then value else numberAt table other := by
  rw [numberAt, numberAt, Array.getElem?_setIfInBounds]
  by_cases hsame : id = other
  · rw [if_pos hsame, if_pos hsame.symm, if_pos hid, Option.getD_some]
  · rw [if_neg hsame, if_neg (Ne.symm hsame)]

namespace Arena

variable {w : Widths} {a : Arena} {paths : List (List UInt8)} {ids : List NodeId} {f g : Forest}
  {id : NodeId} {sizes offsets : Array Nat} {offset : NodeId → Nat} {start : Nat}

/-! ## Nodes and the forests below them -/

/-- There is one way to read siblings. -/
theorem Reads.unique (hf : a.Reads ids f) (hg : a.Reads ids g) : f = g := by
  induction hf generalizing g with
  | nil =>
      cases hg
      rfl
  | cons _ _ ihBelow ihNext =>
      cases hg with
      | cons hbelow hnext => rw [ihBelow hbelow, ihNext hnext]

theorem length_childrenOf (a : Arena) (id : NodeId) :
    (a.childrenOf id).length = (a.node id).children.size := by
  rw [childrenOf, List.length_map, Std.TreeMap.length_toList]

/-- The size of a node is the one that its place in the forest has. -/
theorem Reads.nodeSize_eq (hbelow : a.Reads (a.childrenOf id) f) :
    a.nodeSize w id = w.nodeSize (a.label id) (a.hits id) f.firstBytes.length := by
  rw [hbelow.firstBytes_eq, List.length_map, length_childrenOf]
  rfl

/-! ## Sizes -/

/-- The table has the size of the node with all that is below it. -/
def Measured (w : Widths) (a : Arena) (sizes : Array Nat) (id : NodeId) : Prop :=
  ∀ below, a.Reads (a.childrenOf id) below → numberAt sizes id = a.nodeSize w id + below.byteSize w

/-- Measured siblings together have the size of the forest that they read as. -/
theorem Reads.positionBehind_eq (h : a.Reads ids f)
    (hmeasured : ∀ id ∈ ids, a.Measured w sizes id) (start : Nat) :
    positionBehind start (ids.map (numberAt sizes)) = start + f.byteSize w := by
  induction h generalizing start with
  | nil => rfl
  | @cons id siblings below next hbelow _ _ ihNext =>
      obtain ⟨hhead, hrest⟩ := List.forall_mem_cons.mp hmeasured
      rw [List.map_cons, positionBehind_cons, ihNext hrest, hhead below hbelow, Forest.byteSize,
        hbelow.nodeSize_eq, Nat.add_assoc]

theorem measured_measure (hid : id < sizes.size)
    (hchildren : ∀ child ∈ a.childrenOf id, a.Measured w sizes child) :
    a.Measured w (a.measure w sizes id) id := by
  intro below hbelow
  rw [measure, numberAt_setIfInBounds hid, if_pos rfl, hbelow.positionBehind_eq hchildren]

theorem Measured.measure_other {other : NodeId} (hmeasured : a.Measured w sizes other)
    (hid : id < sizes.size) (hne : other ≠ id) : a.Measured w (a.measure w sizes id) other := by
  intro below hbelow
  rw [measure, numberAt_setIfInBounds hid, if_neg hne]
  exact hmeasured below hbelow

/-- In depth-first order the children of a node come later. -/
theorem HasPaths.mem_of_preorder_eq (h : a.HasPaths paths) {front back : List NodeId}
    (hsplit : a.preorder = front ++ id :: back) {child : NodeId}
    (hchild : child ∈ a.childrenOf id) : child ∈ back := by
  obtain ⟨byte, hslot⟩ := mem_childrenOf.mp hchild
  have hmem : child ∈ a.preorder := h.mem_preorder.mpr (h.child_lt_size hslot)
  have hordered : [id, child].Sublist a.preorder := h.frontier_preorder.ordered id child hchild hmem
  have hnodup : a.preorder.Nodup := h.perm_preorder.nodup_iff.mpr List.nodup_range
  rw [hsplit] at hordered hnodup
  have hfront : id ∉ front := fun hin =>
    (List.nodup_append.mp hnodup).2.2 id hin id List.mem_cons_self rfl
  obtain ⟨ahead, behind, hpair, hahead, hbehind⟩ := List.sublist_append_iff.mp hordered
  cases ahead with
  | nil =>
      rw [List.nil_append] at hpair
      rw [← hpair, List.cons_sublist_cons] at hbehind
      exact List.singleton_sublist.mp hbehind
  | cons head ahead =>
      obtain ⟨rfl, -⟩ := List.cons.inj hpair
      exact absurd (hahead.subset List.mem_cons_self) hfront

/-- After the pass from the children to the parents, every node is measured. -/
theorem HasPaths.measured_subtreeSizes (h : a.HasPaths paths) (w : Widths) :
    (a.subtreeSizes w).size = a.size ∧ ∀ id < a.size, a.Measured w (a.subtreeSizes w) id := by
  -- the nodes that were measured are a part of the order at its end
  have hpass : ∀ back front, a.preorder = front ++ back →
      let sizes := back.foldr (fun id sizes => a.measure w sizes id) (Array.replicate a.size 0)
      sizes.size = a.size ∧ ∀ id ∈ back, a.Measured w sizes id := by
    intro back
    induction back with
    | nil => exact fun front _ => ⟨Array.size_replicate, nofun⟩
    | cons id back ih =>
        intro front hsplit
        obtain ⟨hsize, hmeasured⟩ := ih (front ++ [id]) (by rw [hsplit, List.append_assoc]; rfl)
        have hmem : id ∈ a.preorder := by
          rw [hsplit]
          exact List.mem_append_right front List.mem_cons_self
        have hid := h.mem_preorder.mp hmem
        rw [← hsize] at hid
        refine ⟨Array.size_setIfInBounds.trans hsize, ?_⟩
        intro other hother
        by_cases hsame : other = id
        · rw [hsame]
          exact measured_measure hid fun child hchild =>
            hmeasured child (h.mem_of_preorder_eq hsplit hchild)
        · exact (hmeasured other ((List.mem_cons.mp hother).resolve_left hsame)).measure_other
            hid hsame
  obtain ⟨hsize, hmeasured⟩ := hpass a.preorder [] rfl
  have hfold : a.subtreeSizes w = a.preorder.foldr (fun id sizes => a.measure w sizes id)
      (Array.replicate a.size 0) := List.foldl_reverse
  rw [hfold]
  exact ⟨hsize, fun id hid => hmeasured id (h.mem_preorder.mpr hid)⟩

/-! ## Offsets -/

/-- The first bytes of siblings, and their offsets. -/
def referencesTo (a : Arena) (offset : NodeId → Nat) (ids : List NodeId) : List (UInt8 × Nat) :=
  ids.map fun id => ((a.label id).headD 0, offset id)

/-- The children of the node have the offsets that the forest below it has if it is written right
behind the node. -/
def Placed (w : Widths) (a : Arena) (offset : NodeId → Nat) (id : NodeId) : Prop :=
  ∀ below, a.Reads (a.childrenOf id) below →
    a.referencesTo offset (a.childrenOf id) = below.references w (offset id + a.nodeSize w id)

theorem referencesTo_congr {other : NodeId → Nat} (hsame : ∀ id ∈ ids, other id = offset id) :
    a.referencesTo other ids = a.referencesTo offset ids :=
  List.map_congr_left fun id hid => by rw [hsame id hid]

theorem Placed.congr {other : NodeId → Nat} (hplaced : a.Placed w offset id)
    (hid : other id = offset id) (hchildren : ∀ child ∈ a.childrenOf id, other child = offset child) :
    a.Placed w other id := by
  intro below hbelow
  rw [referencesTo_congr hchildren, hid]
  exact hplaced below hbelow

/-- Siblings that are put one after the other have the offsets of the forest that they read as. -/
theorem Reads.foldl_placeChild (h : a.Reads ids f) (hmeasured : ∀ id ∈ ids, a.Measured w sizes id)
    (hnodup : ids.Nodup) (hinside : ∀ id ∈ ids, id < offsets.size) (next : Nat)
    (waiting : List NodeId) :
    ∃ placed, ids.foldl (placeChild sizes) (next, waiting, offsets) =
        (next + f.byteSize w, ids.reverse ++ waiting, placed) ∧
      placed.size = offsets.size ∧ (∀ id ∉ ids, numberAt placed id = numberAt offsets id) ∧
      a.referencesTo (numberAt placed) ids = f.references w next := by
  induction h generalizing offsets next waiting with
  | nil => exact ⟨offsets, rfl, rfl, fun _ _ => rfl, rfl⟩
  | @cons id siblings below rest hbelow _ _ ihNext =>
      obtain ⟨hhead, htail⟩ := List.forall_mem_cons.mp hmeasured
      obtain ⟨hnew, hnodup⟩ := List.nodup_cons.mp hnodup
      obtain ⟨hid, hsiblings⟩ := List.forall_mem_cons.mp hinside
      have hsize : (offsets.setIfInBounds id next).size = offsets.size := Array.size_setIfInBounds
      obtain ⟨placed, hfold, hplacedSize, hothers, hreferences⟩ :=
        ihNext htail hnodup (by rwa [hsize]) (next + numberAt sizes id) (id :: waiting)
      have hadvance : next + numberAt sizes id =
          next + w.nodeSize (a.label id) (a.hits id) below.firstBytes.length + below.byteSize w := by
        rw [hhead below hbelow, hbelow.nodeSize_eq, Nat.add_assoc]
      refine ⟨placed, ?_, hplacedSize.trans hsize, fun other hother => ?_, ?_⟩
      · rw [List.foldl_cons, placeChild, hfold, hadvance, Forest.byteSize, List.reverse_cons,
          List.append_assoc]
        simp only [Nat.add_assoc, List.singleton_append]
      · obtain ⟨hne, hmem⟩ := not_or.mp (mt List.mem_cons.mpr hother)
        rw [hothers other hmem, numberAt_setIfInBounds hid, if_neg hne]
      · rw [referencesTo, List.map_cons, hothers id hnew, numberAt_setIfInBounds hid, if_pos rfl,
          Forest.references, ← hadvance, ← hreferences, referencesTo]

/-- What holds while the pass from the root to the children works off its stack: the root is where it
should be, and so are the children of the nodes that were taken from the stack. -/
structure Assigned (w : Widths) (a : Arena) (start : Nat) (done waiting : List NodeId)
    (offsets : Array Nat) : Prop where
  frontier : a.Frontier done waiting
  size_eq : offsets.size = a.size
  root_eq : numberAt offsets root = start
  placed : ∀ id ∈ done, a.Placed w (numberAt offsets) id

namespace Assigned

variable {done waiting : List NodeId}

theorem initial (h : a.HasPaths paths) (start : Nat) :
    a.Assigned w start [] [root] ((Array.replicate a.size 0).setIfInBounds root start) where
  frontier := Frontier.start h
  size_eq := by rw [Array.size_setIfInBounds, Array.size_replicate]
  root_eq := by
    rw [numberAt_setIfInBounds (by rw [Array.size_replicate]; exact h.lt_size h.root_path), if_pos rfl]
  placed _ hid := nomatch hid

/-- The children of a node are no node that the pass came by before, so nothing that was right gets
wrong. -/
theorem step (hassigned : a.Assigned w start done (id :: waiting) offsets) (h : a.HasPaths paths)
    (hmeasured : ∀ id < a.size, a.Measured w sizes id) :
    a.Assigned w start (done ++ [id]) (a.placeChildren w sizes id waiting offsets).1
      (a.placeChildren w sizes id waiting offsets).2 := by
  have hfrontier := hassigned.frontier
  have hold : id ∈ done ++ id :: waiting := List.mem_append_right done List.mem_cons_self
  have hnew : ∀ other ∈ done ++ id :: waiting, other ∉ a.childrenOf id := fun other hother hchild =>
    hfrontier.child_not_mem h hchild hother
  have hinside : ∀ child ∈ a.childrenOf id, child < a.size := by
    intro child hchild
    obtain ⟨byte, hslot⟩ := mem_childrenOf.mp hchild
    exact h.child_lt_size hslot
  obtain ⟨path, hpath⟩ := h.exists_path (hfrontier.inside id hold)
  obtain ⟨below, hbelow⟩ := h.exists_reads hpath
  obtain ⟨placed, hfold, hsize, hothers, hreferences⟩ := hbelow.foldl_placeChild
    (fun child hchild => hmeasured child (hinside child hchild)) (h.nodup_childrenOf id)
    (by rwa [hassigned.size_eq]) (numberAt offsets id + a.nodeSize w id) waiting
  have hresult : a.placeChildren w sizes id waiting offsets =
      ((a.childrenOf id).reverse ++ waiting, placed) := by
    rw [placeChildren, hfold]
  have hkept : ∀ other ∈ done ++ id :: waiting, numberAt placed other = numberAt offsets other :=
    fun other hother => hothers other (hnew other hother)
  rw [hresult]
  refine ⟨hfrontier.step h (List.reverse_perm _), hsize.trans hassigned.size_eq,
    (hkept root hfrontier.root_mem).trans hassigned.root_eq, ?_⟩
  intro other hother
  rcases List.mem_append.mp hother with hdone | hself
  · refine (hassigned.placed other hdone).congr (hkept other (List.mem_append_left _ hdone)) ?_
    intro child hchild
    exact hkept child (hfrontier.children other hdone child hchild)
  · obtain rfl := List.mem_singleton.mp hself
    intro found hfound
    rw [hfound.unique hbelow, hreferences, hkept other hold]

/-- A pass that has as many steps left as there are nodes left comes by them all. -/
theorem placeFrom (hassigned : a.Assigned w start done waiting offsets) (h : a.HasPaths paths)
    (hmeasured : ∀ id < a.size, a.Measured w sizes id) {budget : Nat}
    (hbudget : a.size ≤ done.length + budget) :
    ∃ all, a.Assigned w start all [] (a.placeFrom w sizes budget waiting offsets) := by
  induction budget generalizing done waiting offsets with
  | zero =>
      rw [Arena.placeFrom]
      exact ⟨done, hassigned.frontier.waiting_eq_nil hbudget ▸ hassigned⟩
  | succ budget ih =>
      cases waiting with
      | nil => exact ⟨done, hassigned⟩
      | cons id waiting =>
          rw [Arena.placeFrom]
          exact ih (hassigned.step h hmeasured) (by rw [List.length_append]; simp; omega)

end Assigned

/-- There is nothing below a position that no node has. -/
theorem placed_of_size_le (hid : a.size ≤ id) : a.Placed w offset id := by
  have hnone : a.childrenOf id = [] := by
    have hnode : a.node id = {} := by
      rw [node, Array.getElem?_eq_none hid]
      rfl
    rw [childrenOf, hnode]
    rfl
  intro below hbelow
  rw [hnone] at hbelow ⊢
  cases hbelow
  rfl

/-- After both passes the root is at the start, and the children of every node are behind it. -/
theorem HasPaths.placed_offsetsAt (h : a.HasPaths paths) (w : Widths) (start : Nat) :
    (a.offsetsAt w start).size = a.size ∧ numberAt (a.offsetsAt w start) root = start ∧
      ∀ id, a.Placed w (numberAt (a.offsetsAt w start)) id := by
  have hbudget : a.size ≤ ([] : List NodeId).length + a.size := by simp
  have hfirst : a.Assigned w start [] [root]
      ((Array.replicate a.size 0).setIfInBounds root start) := .initial h start
  obtain ⟨all, hall⟩ := hfirst.placeFrom h (h.measured_subtreeSizes w).2 hbudget
  have hperm := hall.frontier.perm_range h
  refine ⟨hall.size_eq, hall.root_eq, fun id => ?_⟩
  rcases Nat.lt_or_ge id a.size with hid | hid
  · exact hall.placed id (hperm.mem_iff.mpr (List.mem_range.mpr hid))
  · exact placed_of_size_le hid

end Arena

end PrefixSearch
