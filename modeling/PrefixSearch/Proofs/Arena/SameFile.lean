import PrefixSearch.ArenaFile
import PrefixSearch.Proofs.Arena.Shape
import PrefixSearch.Proofs.BytePositions
import PrefixSearch.Proofs.Trie.MergeOfTexts
import PrefixSearch.Proofs.WidthChoice

/-!
# Arenas with the same nodes have the same file

The positions of the nodes are in every table that the layout is made with, but not in the file.  An arena
is frozen and written as the tree that it stores, and the tree is determined by the paths of the nodes and
by what they find.
-/

namespace PrefixSearch

theorem Forest.length_visits (f : Forest) (depth : Nat) : (f.visits depth).length = f.size := by
  induction f generalizing depth with
  | nil => rfl
  | cons label hits below next ihBelow ihNext =>
      rw [visits, List.length_cons, List.length_append, ihBelow, ihNext, size]

theorem Trie.length_visits (t : Trie) : t.visits.length = t.size := by
  rw [visits, List.length_cons, Forest.length_visits, size]

namespace Arena

variable {a b : Arena} {t u : Trie} {paths otherPaths : List (List UInt8)} {path : List UInt8}
  {hits : Hits}

/-! ## The same nodes -/

/-- Slots lead along the path to a node that finds this. -/
def NodeAt (a : Arena) (path : List UInt8) (hits : Hits) : Prop :=
  ∃ keys id, a.Leads keys path id ∧ a.hits id = hits

/-- Two arenas have nodes at the same paths, and these find the same. -/
def SameNodes (a b : Arena) : Prop :=
  ∀ path hits, a.NodeAt path hits ↔ b.NodeAt path hits

theorem HasPaths.nodeAt_iff (h : a.HasPaths paths) :
    a.NodeAt path hits ↔ path ∈ paths ∧ a.lookup path = hits := by
  constructor
  · rintro ⟨keys, id, hleads, rfl⟩
    have hid := h.path_of_leads hleads
    exact ⟨List.mem_of_getElem? hid, (h.finds_lookup id path hid).symm⟩
  · rintro ⟨hpath, rfl⟩
    obtain ⟨id, hid⟩ := List.mem_iff_getElem?.mp hpath
    obtain ⟨keys, hleads⟩ := h.exists_leads hid
    exact ⟨keys, id, hleads, h.finds_lookup id path hid⟩

/-- Arenas that store the same tree have the same nodes. -/
theorem Stores.sameNodes (ha : a.Stores t) (hpaths : a.HasPaths paths) (hb : b.Stores t)
    (hother : b.HasPaths otherPaths) : SameNodes a b := by
  intro path hits
  rw [hpaths.nodeAt_iff, hother.nodeAt_iff, ← ha.isNode_iff hpaths, ← ha.hits_place hpaths,
    ← hb.isNode_iff hother, ← hb.hits_place hother]

/-- Arenas that operations make like the same tree have the same nodes. -/
theorem Alike.sameNodes [Search] (ha : Alike a t) (hb : Alike b t) : SameNodes a b := by
  obtain ⟨paths, hpaths, hstores⟩ := ha.stores
  obtain ⟨otherPaths, hother, hstored⟩ := hb.stores
  exact hstores.sameNodes hpaths hstored hother

/-- Let the ranks of results that look the same follow their IDs.  Then merging the arena of some texts
into the arena of others gives the nodes of the arena to which all texts were added one after the
other. -/
theorem sameNodes_merge_insertAll [Search] (table : ResultTable) (bound : Nat) (left right : List Term)
    (hranks : table.RanksFollowIds (· ∈ (left ++ right).map Term.id)) :
    let empty : Arena := { bound }
    SameNodes ((empty.insertAll table left).merge table (empty.insertAll table right))
      ((empty.insertAll table left).insertAll table right) := by
  have hmerged := (Alike.ofTerms table bound left).merge table (Alike.ofTerms table bound right)
  rw [Trie.merge_ofTerms_of_ranks hranks, Trie.ofTerms_append] at hmerged
  exact hmerged.sameNodes ((Alike.ofTerms table bound left).insertAll table right)

namespace SameNodes

theorem mem_iff (hsame : SameNodes a b) (ha : a.HasPaths paths) (hb : b.HasPaths otherPaths)
    (path : List UInt8) : path ∈ paths ↔ path ∈ otherPaths := by
  have hnode : ∀ hits, (path ∈ paths ∧ a.lookup path = hits) ↔
      path ∈ otherPaths ∧ b.lookup path = hits := fun hits => by
    rw [← ha.nodeAt_iff, hsame path hits, hb.nodeAt_iff]
  exact ⟨fun hpath => ((hnode _).mp ⟨hpath, rfl⟩).1, fun hpath => ((hnode _).mpr ⟨hpath, rfl⟩).1⟩

/-- What the nodes find determines what every text finds. -/
theorem lookup_eq (hsame : SameNodes a b) (ha : a.HasPaths paths) (hb : b.HasPaths otherPaths)
    (text : List UInt8) : b.lookup text = a.lookup text := by
  refine hb.lookup_eq (fun id path hid => ?_) ?_ text
  · have hpath : path ∈ otherPaths := List.mem_of_getElem? hid
    have hnode : a.NodeAt path (a.lookup path) :=
      ha.nodeAt_iff.mpr ⟨(hsame.mem_iff ha hb path).mpr hpath, rfl⟩
    rw [hsame, hb.nodeAt_iff] at hnode
    rw [hb.finds_lookup id path hid, hnode.2]
  · intro text
    exact (ha.followsNodes_lookup text).congr (fun lower _ => (hsame.mem_iff ha hb lower).symm)
      fun _ _ => rfl

/-- But for the bound, they store the same tree. -/
theorem stores (hsame : SameNodes a b) (ha : a.HasPaths paths) (hb : b.HasPaths otherPaths)
    (hstores : a.Stores t) : b.Stores { t with bound := b.bound } := by
  refine hb.stores_of_places (hstores.wellFormed ha) rfl (fun text => ?_) fun text => ?_
  · rw [← hsame.mem_iff ha hb]
    exact hstores.isNode_iff ha text
  · rw [hsame.lookup_eq ha hb]
    exact hstores.hits_place ha text

end SameNodes

/-! ## The maxima -/

namespace HasPaths

/-- The depth-first order has the nodes of the array, in another order. -/
theorem mem_map_preorder (h : a.HasPaths paths) {f : ArenaNode → Nat} {value : Nat} :
    value ∈ a.preorder.map (fun id => f (a.node id)) ↔ value ∈ a.nodes.toList.map f := by
  have hnodes : a.nodes.toList = (List.range a.size).map a.node := by
    refine List.ext_getElem (by simp [size]) fun i hi _ => ?_
    rw [Array.length_toList] at hi
    simp [node, hi]
  rw [hnodes, List.map_map]
  exact (h.perm_preorder.map _).mem_iff

end HasPaths

namespace Stores

/-- What is measured at the nodes of the tree is measured at those of the arena. -/
theorem mem_map_visits (hstores : a.Stores t) (h : a.HasPaths paths)
    {f : List UInt8 × Hits × Nat → Nat} {value : Nat} :
    value ∈ t.visits.map (fun v => f (v.label, v.hits, v.children)) ↔
      value ∈ a.nodes.toList.map fun node => f (node.label, node.hits, node.children.size) := by
  have hvisits := congrArg (List.map f) (hstores.visits_eq h)
  have hshown : ∀ id, f (a.shown id) =
      f ((a.node id).label, (a.node id).hits, (a.node id).children.size) := fun id => by
    rw [shown, length_childrenOf]
    rfl
  rw [List.map_map, List.map_map] at hvisits
  rw [← h.mem_map_preorder, ← List.map_congr_left fun id _ => hshown id]
  exact hvisits ▸ Iff.rfl

theorem size_eq (hstores : a.Stores t) (h : a.HasPaths paths) : a.size = t.size := by
  have hlength := congrArg List.length (hstores.visits_eq h)
  rw [List.length_map, List.length_map, Trie.length_visits, h.length_preorder] at hlength
  exact hlength.symm

/-- The maxima do not depend on the order of the nodes. -/
theorem stats_eq (hstores : a.Stores t) (h : a.HasPaths paths) (config : Config)
    (table : ResultTable) :
    (ArenaIndex.mk config table a).stats = (Index.mk config table t).stats := by
  have hlabels : ∀ value, value ∈ a.nodes.toList.map (·.label.length) ↔
      value ∈ t.visits.map (·.label.length) := fun value =>
    (hstores.mem_map_visits h (f := fun shown => shown.1.length)).symm
  have hchildren : ∀ value, value ∈ a.nodes.toList.map (·.children.size) ↔
      value ∈ t.visits.map (·.children) := fun value =>
    (hstores.mem_map_visits h (f := fun shown => shown.2.2)).symm
  rw [ArenaIndex.stats, Index.stats, Stats.mk.injEq]
  refine ⟨maximum_congr fun value => ?_, maximum_congr hchildren, rfl, hstores.size_eq h⟩
  simp only [List.mem_append, hlabels]

end Stores

/-! ## The file -/

namespace Stores

/-- The layout that is tried out is as long as that of the tree. -/
theorem totalSize_eq (hstores : a.Stores t) (h : a.HasPaths paths) (config : Config)
    (table : ResultTable) (w : Widths) :
    ((ArenaIndex.mk config table a).layout w).totalSize =
      ((Index.mk config table t).layout w).totalSize := by
  have hlayout : a.layout (Index.mk config table t) w = _ := hstores.layout_eq h w
  have hsize := congrArg Layout.totalSize hlayout
  exact hsize

/-- If the offsets reach to the end of the file, its bytes are those of the tree. -/
theorem encode_frozen (hstores : a.Stores t) (h : a.HasPaths paths) (config : Config)
    (table : ResultTable) {widths : Widths}
    (hfile : ((Index.mk config table t).layout widths).totalSize ≤
      Bytes.capacity widths.offsetBytes) :
    (FrozenArena.mk ⟨config, table, a⟩ widths).encode =
      (Frozen.mk ⟨config, table, t⟩ widths).encode := by
  let frozen : Frozen := ⟨⟨config, table, t⟩, widths⟩
  have hlayout : frozen.layoutOf a = a.layout frozen.toIndex widths :=
    Frozen.layoutOf_eq hfile hstores h
  have hbytes : frozen.encode = frozen.encodeHeader ++ (frozen.encodeTypeMap ++
      (frozen.encodeResults ++ a.encode widths (a.layout frozen.toIndex widths))) :=
    Frozen.encode_eq hstores h
  rw [← hlayout] at hbytes
  exact hbytes.symm

/-- An arena is frozen as the tree that it stores, or refused for the same reason. -/
theorem finalize_encode (hstores : a.Stores t) (h : a.HasPaths paths) (config : Config)
    (table : ResultTable) :
    (ArenaIndex.mk config table a).finalize.map FrozenArena.encode =
      (Index.mk config table t).finalize.map Frozen.encode := by
  have hsorted : (a.sort table).Stores (t.sort table) := hstores.mapHits rfl
  have hpaths : (a.sort table).HasPaths paths := h.mapHits rfl
  have hstats := hsorted.stats_eq hpaths config table
  have hsize := funext (hsorted.totalSize_eq hpaths config table)
  rw [ArenaIndex.finalize, Index.map_encode_finalize]
  dsimp only [ArenaIndex.sorted, Index.sorted]
  rw [hstats, hsize]
  cases hw : config.chooseWidths (Index.mk config table (t.sort table)).stats fun w =>
      ((Index.mk config table (t.sort table)).layout w).totalSize with
  | error fault => rfl
  | ok w =>
      have hfile := (Config.chooseWidths_eq_ok_iff.mp hw).size_le
      exact congrArg Except.ok (hsorted.encode_frozen hpaths config table hfile)

end Stores

/-- The bound of a tree is not in its file. -/
theorem finalize_encode_of_bound (config : Config) (table : ResultTable) (t : Trie) (bound : Nat) :
    (Index.mk config table { t with bound }).finalize.map Frozen.encode =
      (Index.mk config table t).finalize.map Frozen.encode := by
  rw [Index.map_encode_finalize, Index.map_encode_finalize]
  rfl

/-- The file depends on nothing but the paths of the nodes and what they find.  Two arenas that additions of
texts and of trees build in whatever order, with the same nodes, are refused for the same reason or have
the same bytes, and these are the bytes of every tree that the same operations make. -/
theorem built_same_file [Search] {texts more : List (List UInt8)} (ha : Built a texts) (hb : Built b more)
    (hsame : SameNodes a b) (config : Config) (table : ResultTable) :
    (ArenaIndex.mk config table a).finalize.map FrozenArena.encode =
        (ArenaIndex.mk config table b).finalize.map FrozenArena.encode ∧
      ∀ t, Alike a t → (ArenaIndex.mk config table a).finalize.map FrozenArena.encode =
        (Index.mk config table t).finalize.map Frozen.encode := by
  obtain ⟨paths, hpaths, -⟩ := ha.exists_paths
  obtain ⟨otherPaths, hother, -⟩ := hb.exists_paths
  obtain ⟨t, hstores⟩ := hpaths.exists_stores
  constructor
  · rw [hstores.finalize_encode hpaths, (hsame.stores hpaths hother hstores).finalize_encode hother]
    exact (finalize_encode_of_bound config table t b.bound).symm
  · intro u halike
    obtain ⟨paths, hpaths, hstores⟩ := halike.stores
    exact hstores.finalize_encode hpaths config table

/-- The results of "magnum" and "magnet". -/
def magnumTable : ResultTable where
  rows := #[
    { entry := { name := "magnum", url := "magnum.html", kind := .page } },
    { entry := { name := "magnet", url := "magnet.html", kind := .page } }]

/-- "magnum" with "magnet" merged into it, and the two added to one tree the other way round.  The node for
"magn" is appended behind both that are there by then, so the other nodes change places. -/
theorem built_same_file_magnum_magnet :
    let merged := (insert magnumTable magnum { bound := 100 }).merge magnumTable
      (insert magnumTable magnet { bound := 100 })
    let added := (insert magnumTable magnet { bound := 100 }).insert magnumTable magnum
    SameNodes merged added ∧ merged.preorder = [0, 2, 3, 1] ∧ added.preorder = [0, 2, 1, 3] ∧
      ∃ file, file.length = 150 ∧
        (ArenaIndex.mk {} magnumTable merged).finalize.map FrozenArena.encode = .ok file ∧
        (ArenaIndex.mk {} magnumTable added).finalize.map FrozenArena.encode = .ok file := by
  intro merged added
  have hmagnum : Alike (insert magnumTable magnum { bound := 100 })
      (Trie.insert magnumTable magnum { bound := 100 }) := (Alike.new 100).insert magnumTable magnum
  have hmagnet : Alike (insert magnumTable magnet { bound := 100 })
      (Trie.insert magnumTable magnet { bound := 100 }) := (Alike.new 100).insert magnumTable magnet
  have htrees : (Trie.insert magnumTable magnum { bound := 100 }).merge magnumTable
      (Trie.insert magnumTable magnet { bound := 100 }) =
        (Trie.insert magnumTable magnet { bound := 100 }).insert magnumTable magnum := by
    decide +kernel
  have hsame : SameNodes merged added := by
    have hmerged := hmagnum.merge magnumTable hmagnet
    rw [htrees] at hmerged
    exact hmerged.sameNodes (hmagnet.insert magnumTable magnum)
  have hbuiltMagnum := Built.insert magnumTable magnum (.new 100)
  have hbuiltMagnet := Built.insert magnumTable magnet (.new 100)
  obtain ⟨hfile, -⟩ := built_same_file (Built.merge magnumTable hbuiltMagnum hbuiltMagnet)
    (Built.insert magnumTable magnum hbuiltMagnet) hsame {} magnumTable
  have hlength : ((ArenaIndex.mk {} magnumTable merged).finalize.map
      FrozenArena.encode).toOption.map List.length = some 150 := by
    decide +kernel
  obtain ⟨file, hmerged, hlength⟩ := Option.map_eq_some_iff.mp hlength
  rw [toOption_eq_some] at hmerged
  exact ⟨hsame, by decide +kernel, by decide +kernel, file, hlength, hmerged,
    hfile.symm.trans hmerged⟩

end Arena

end PrefixSearch
