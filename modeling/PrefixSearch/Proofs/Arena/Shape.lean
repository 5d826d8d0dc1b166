import PrefixSearch.Proofs.Arena.Building

/-!
# The shape of an arena

An arena that was built by adding texts and trees is a tree, its paths are the paths that the texts
span, and its shape depends on nothing else: two arenas for the same texts differ in the positions
of their nodes and in what the nodes find, but in no label and no slot.
-/

namespace PrefixSearch

namespace Arena

/-- Slots that lead from the root to a node one after the other: their bytes, and what the labels on
the way read. -/
inductive Leads (a : Arena) : List UInt8 → List UInt8 → NodeId → Prop
  | root : Leads a [] (a.label root) root
  | child {keys path : List UInt8} {parent child : NodeId} {byte : UInt8}
      (hparent : Leads a keys path parent) (hchild : a.child? parent byte = some child) :
      Leads a (keys ++ [byte]) (path ++ a.label child) child

/-- The nodes are a tree below the root: slots lead to every node in one way and to nothing else,
the first byte of a node's label is the key of its slot, and the depth-first order has every node
once, after its parent. -/
structure IsTree (a : Arena) : Prop where
  inside : ∀ keys path id, a.Leads keys path id → id < a.size
  reached_once : ∀ id < a.size, ∃ keys path, a.Leads keys path id ∧
    ∀ keys' path', a.Leads keys' path' id → keys' = keys ∧ path' = path
  root_label : a.label root = []
  label_ne_nil : ∀ id < a.size, id ≠ root → a.label id ≠ []
  keyed : ∀ parent byte child, a.child? parent byte = some child →
    (a.label child).head? = some byte
  preorder_perm : a.preorder.Perm (List.range a.size)
  parent_first : ∀ parent byte child, a.child? parent byte = some child →
    [parent, child].Sublist a.preorder

/-- The nodes of one arena under other positions: the root, the labels, the slots and the order of
the nodes are the same. -/
structure Renumbers (a b : Arena) (renumber : NodeId → NodeId) : Prop where
  inside : ∀ id < a.size, renumber id < b.size
  injective : ∀ id < a.size, ∀ other < a.size, renumber id = renumber other → id = other
  surjective : ∀ id < b.size, ∃ old < a.size, renumber old = id
  root_eq : renumber root = root
  label_eq : ∀ id < a.size, b.label (renumber id) = a.label id
  child?_eq : ∀ id < a.size, ∀ byte,
    b.child? (renumber id) byte = (a.child? id byte).map renumber
  preorder_eq : b.preorder = a.preorder.map renumber

namespace HasPaths

variable {a b : Arena} {paths otherPaths : List (List UInt8)} {keys path : List UInt8} {id : NodeId}

/-! ## A tree -/

theorem path_of_leads (h : a.HasPaths paths) (hleads : a.Leads keys path id) :
    paths[id]? = some path := by
  induction hleads with
  | root => rw [h.root_label, h.root_path]
  | child _ hchild ih =>
      obtain ⟨below, hlabel, hpath⟩ := h.edge ih hchild
      rw [hlabel, hpath]

/-- Every node is reached, from its parent. -/
theorem exists_leads (h : a.HasPaths paths) (hid : paths[id]? = some path) :
    ∃ keys, a.Leads keys path id := by
  induction hlength : path.length using Nat.strongRecOn generalizing id path with
  | _ length ih =>
      by_cases hroot : id = root
      · subst hroot
        rw [h.root_path, Option.some.injEq] at hid
        rw [← hid, ← h.root_label]
        exact ⟨[], .root⟩
      · obtain ⟨parent, byte, hslot⟩ := h.parent (h.lt_size hid) hroot
        obtain ⟨above, below, habove, hlabel, hpath⟩ := h.slot hslot
        rw [hid, Option.some.injEq] at hpath
        have hshorter : above.length < length := by
          rw [← hlength, hpath]
          simp
        obtain ⟨keys, hkeys⟩ := ih _ hshorter habove rfl
        rw [hpath, ← hlabel]
        exact ⟨keys ++ [byte], .child hkeys hslot⟩

/-- No node is reached in two ways, since it stands in one slot. -/
theorem keys_unique (h : a.HasPaths paths) {keys' path' : List UInt8}
    (hleads : a.Leads keys path id) (hother : a.Leads keys' path' id) : keys' = keys := by
  induction hleads generalizing keys' path' with
  | root =>
      cases hother with
      | root => rfl
      | child _ hchild => exact absurd rfl (h.child_ne_root hchild)
  | child _ hchild ih =>
      cases hother with
      | root => exact absurd rfl (h.child_ne_root hchild)
      | child hparent' hchild' =>
          obtain ⟨rfl, rfl⟩ := h.slot_unique hchild hchild'
          rw [ih hparent']

theorem isTree (h : a.HasPaths paths) : a.IsTree where
  inside _ _ _ hleads := h.lt_size (h.path_of_leads hleads)
  reached_once id hid := by
    obtain ⟨path, hpath⟩ := h.exists_path hid
    obtain ⟨keys, hkeys⟩ := h.exists_leads hpath
    refine ⟨keys, path, hkeys, fun keys' path' hleads => ⟨h.keys_unique hkeys hleads, ?_⟩⟩
    have hsame := h.path_of_leads hleads
    rwa [hpath, Option.some.injEq, eq_comm] at hsame
  root_label := h.root_label
  label_ne_nil id hid hroot := by
    obtain ⟨parent, byte, hslot⟩ := h.parent hid hroot
    exact h.label_ne_nil hslot
  keyed _ _ _ hslot := h.head?_label hslot
  preorder_perm := h.perm_preorder
  parent_first parent byte child hslot := by
    have hchild := mem_childrenOf.mpr ⟨byte, hslot⟩
    exact h.frontier_preorder.ordered parent child hchild (h.mem_preorder.mpr (h.child_lt_size hslot))

end HasPaths

/-! ## The same paths -/

/-- Two arenas whose nodes have the same paths. -/
structure SamePaths (a b : Arena) (paths otherPaths : List (List UInt8)) : Prop where
  left : a.HasPaths paths
  right : b.HasPaths otherPaths
  mem_iff : ∀ path, path ∈ paths ↔ path ∈ otherPaths

namespace SamePaths

variable {a b : Arena} {paths otherPaths : List (List UInt8)} {parent child id : NodeId}
  {byte : UInt8} {path : List UInt8}

/-- The position that the path of a node has among other paths. -/
def moved (paths otherPaths : List (List UInt8)) (id : NodeId) : NodeId :=
  otherPaths.idxOf (paths[id]?.getD [])

theorem symm (h : SamePaths a b paths otherPaths) : SamePaths b a otherPaths paths where
  left := h.right
  right := h.left
  mem_iff path := (h.mem_iff path).symm

theorem path_moved (h : SamePaths a b paths otherPaths) (hpath : paths[id]? = some path) :
    otherPaths[moved paths otherPaths id]? = some path := by
  have hmem := (h.mem_iff path).mp (List.mem_of_getElem? hpath)
  rw [moved, hpath, Option.getD_some,
    List.getElem?_eq_getElem (List.idxOf_lt_length_iff.mpr hmem), List.getElem_idxOf]

theorem moved_moved (h : SamePaths a b paths otherPaths) (hid : id < a.size) :
    moved otherPaths paths (moved paths otherPaths id) = id := by
  obtain ⟨path, hpath⟩ := h.left.exists_path hid
  exact h.left.eq_of_path (h.symm.path_moved (h.path_moved hpath)) hpath

/-- A slot leads between two paths in both arenas or in neither. -/
theorem child?_of_eq_some (h : SamePaths a b paths otherPaths)
    (hchild : a.child? parent byte = some child) :
    b.child? (moved paths otherPaths parent) byte = some (moved paths otherPaths child) := by
  obtain ⟨above, below, habove, hbelow, hshortest⟩ := h.left.child?_iff.mp hchild
  exact h.right.child?_iff.mpr ⟨above, below, h.path_moved habove, h.path_moved hbelow,
    fun other hother => hshortest other ((h.mem_iff _).mpr hother)⟩

theorem child?_moved (h : SamePaths a b paths otherPaths) (hid : id < a.size) (byte : UInt8) :
    b.child? (moved paths otherPaths id) byte =
      (a.child? id byte).map (moved paths otherPaths) := by
  cases hchild : a.child? id byte with
  | some child => exact h.child?_of_eq_some hchild
  | none =>
      cases hother : b.child? (moved paths otherPaths id) byte with
      | none => rfl
      | some other =>
          have hback := h.symm.child?_of_eq_some hother
          rw [h.moved_moved hid, hchild] at hback
          cases hback

theorem label_moved (h : SamePaths a b paths otherPaths) (hid : id < a.size) :
    b.label (moved paths otherPaths id) = a.label id := by
  by_cases hroot : id = root
  · subst hroot
    have hsame := h.right.eq_of_path (h.path_moved h.left.root_path) h.right.root_path
    rw [hsame, h.left.root_label, h.right.root_label]
  · obtain ⟨parent, byte, hslot⟩ := h.left.parent hid hroot
    obtain ⟨above, below, habove, hlabel, hpath⟩ := h.left.slot hslot
    obtain ⟨below', hlabel', hpath'⟩ :=
      h.right.edge (h.path_moved habove) (h.child?_of_eq_some hslot)
    rw [h.path_moved hpath, Option.some.injEq] at hpath'
    rw [hlabel, hlabel', ← List.append_cancel_left hpath']

theorem childrenOf_moved (h : SamePaths a b paths otherPaths) (hid : id < a.size) :
    b.childrenOf (moved paths otherPaths id) =
      (a.childrenOf id).map (moved paths otherPaths) := by
  have hsame : (b.node (moved paths otherPaths id)).children.Equiv
      ((a.node id).children.map fun _ child => moved paths otherPaths child) :=
    Std.TreeMap.Equiv.of_forall_constGet?_eq fun byte => by
      rw [Std.TreeMap.getElem?_map]
      exact h.child?_moved hid byte
  rw [childrenOf, hsame.toList_eq, Std.TreeMap.toList_map, List.map_map, childrenOf, List.map_map]
  rfl

theorem preorderFrom_moved (h : SamePaths a b paths otherPaths) (budget : Nat)
    {waiting : List NodeId} (hwaiting : ∀ id ∈ waiting, id < a.size) :
    b.preorderFrom budget (waiting.map (moved paths otherPaths)) =
      (a.preorderFrom budget waiting).map (moved paths otherPaths) := by
  induction budget generalizing waiting with
  | zero => rfl
  | succ budget ih =>
      cases waiting with
      | nil => rfl
      | cons id waiting =>
          have hnext : ∀ node ∈ a.childrenOf id ++ waiting, node < a.size := by
            intro node hnode
            rcases List.mem_append.mp hnode with hchild | hold
            · obtain ⟨byte, hslot⟩ := mem_childrenOf.mp hchild
              exact h.left.child_lt_size hslot
            · exact hwaiting node (List.mem_cons_of_mem _ hold)
          rw [List.map_cons, preorderFrom, preorderFrom, List.map_cons,
            h.childrenOf_moved (hwaiting id List.mem_cons_self), ← List.map_append, ih hnext]

theorem size_eq (h : SamePaths a b paths otherPaths) : b.size = a.size := by
  have hperm : paths.Perm otherPaths :=
    (List.perm_ext_iff_of_nodup h.left.nodup h.right.nodup).mpr h.mem_iff
  rw [← h.left.length_eq, ← h.right.length_eq, hperm.length_eq]

/-- The nodes of the one arena are those of the other under the positions of their paths. -/
theorem renumbers (h : SamePaths a b paths otherPaths) :
    a.Renumbers b (moved paths otherPaths) where
  inside id hid := by
    obtain ⟨path, hpath⟩ := h.left.exists_path hid
    exact h.right.lt_size (h.path_moved hpath)
  injective id hid other hother hsame := by
    rw [← h.moved_moved hid, hsame, h.moved_moved hother]
  surjective id hid := by
    obtain ⟨path, hpath⟩ := h.right.exists_path hid
    exact ⟨moved otherPaths paths id, h.left.lt_size (h.symm.path_moved hpath),
      h.symm.moved_moved hid⟩
  root_eq := h.right.eq_of_path (h.path_moved h.left.root_path) h.right.root_path
  label_eq _ hid := h.label_moved hid
  child?_eq _ hid byte := h.child?_moved hid byte
  preorder_eq := by
    have hroot := h.right.eq_of_path (h.path_moved h.left.root_path) h.right.root_path
    have hinside : ∀ id ∈ [root], id < a.size := fun id hid => by
      rw [List.mem_singleton.mp hid]
      exact h.left.lt_size h.left.root_path
    have hwalk := h.preorderFrom_moved a.size hinside
    rw [List.map_singleton, hroot] at hwalk
    rw [preorder, preorder, h.size_eq]
    exact hwalk

end SamePaths

/-- Every arena that additions of texts and of trees build is a tree.  Its nodes are the empty path,
the texts, and the longest common prefixes of two texts, one node for each path.  Two arenas for the
same texts have the same shape, whatever the order of the additions, the results and the bounds. -/
theorem built_shape [Search] {a : Arena} {texts : List (List UInt8)} (hbuilt : Built a texts) :
    a.IsTree ∧
      (∀ path, (∃ keys id, a.Leads keys path id) ↔ path = [] ∨ path ∈ texts ∨
        ∃ left ∈ texts, ∃ right ∈ texts, path = commonPrefix left right) ∧
      (∀ path keys id keys' id', a.Leads keys path id → a.Leads keys' path id' → id = id') ∧
      ∀ b more, Built b more → (∀ text, text ∈ texts ↔ text ∈ more) →
        ∃ renumber, a.Renumbers b renumber := by
  obtain ⟨paths, hpaths, hspanned⟩ := hbuilt.exists_paths
  refine ⟨hpaths.isTree, fun path => ?_, ?_, ?_⟩
  · refine Iff.trans ⟨?_, ?_⟩ (hspanned path)
    · rintro ⟨keys, id, hleads⟩
      exact List.mem_of_getElem? (hpaths.path_of_leads hleads)
    · intro hmem
      obtain ⟨id, hid⟩ := List.mem_iff_getElem?.mp hmem
      obtain ⟨keys, hkeys⟩ := hpaths.exists_leads hid
      exact ⟨keys, id, hkeys⟩
  · intro path keys id keys' id' hleads hother
    exact hpaths.eq_of_path (hpaths.path_of_leads hleads) (hpaths.path_of_leads hother)
  · intro b more hb htexts
    obtain ⟨otherPaths, hother, hspannedOther⟩ := hb.exists_paths
    have hsame : SamePaths a b paths otherPaths := by
      refine ⟨hpaths, hother, fun path => ?_⟩
      rw [hspanned, hspannedOther]
      exact ⟨Spanned.mono fun _ htext => (htexts _).mp htext,
        Spanned.mono fun _ htext => (htexts _).mpr htext⟩
    exact ⟨_, hsame.renumbers⟩

/-- The texts "magnum" and "magnet", each in a tree of its own. -/
def magnum : Term :=
  { text := [109, 97, 103, 110, 117, 109], id := 0, exact := true }

def magnet : Term :=
  { text := [109, 97, 103, 110, 101, 116], id := 1, exact := true }

/-- Merging two trees cuts "magnum" before its fifth byte, and adding the texts one after the other
gives the same shape. -/
theorem built_shape_magnum_magnet :
    let merged := (insert {} magnum { bound := 100 }).merge {} (insert {} magnet { bound := 100 })
    let added := insert {} magnum (insert {} magnet { bound := 100 })
    merged.IsTree ∧ (∃ keys id, merged.Leads keys [109, 97, 103, 110] id) ∧
      ∃ renumber, merged.Renumbers added renumber := by
  have hmagnum : Built (insert {} magnum { bound := 100 }) [magnum.text] :=
    .insert {} magnum (.new 100)
  have hmagnet : Built (insert {} magnet { bound := 100 }) [magnet.text] :=
    .insert {} magnet (.new 100)
  obtain ⟨htree, hpaths, -, hsame⟩ := built_shape (.merge {} hmagnum hmagnet)
  have hfork : [109, 97, 103, 110] = commonPrefix magnum.text magnet.text := by decide
  refine ⟨htree, (hpaths _).mpr (Or.inr (Or.inr ?_)), hsame _ _ (.insert {} magnum hmagnet) ?_⟩
  · exact ⟨magnum.text, by simp, magnet.text, by simp, hfork⟩
  · intro text
    simp [or_comm]

end Arena

end PrefixSearch
