import PrefixSearch.Proofs.Arena.Lookup
import PrefixSearch.Proofs.Arena.Traversal

/-!
# Reading an arena as a tree

The nodes below a node of an arena read as a forest: siblings are the first of them, the forest
below it and the forest of the others.  Every arena whose nodes have paths stores a well-formed tree
in this sense. The same texts are nodes of it, every text finds the same, and the depth-first orders
agree.
-/

namespace PrefixSearch

namespace Arena

/-- Siblings, with everything below them, as a forest. -/
inductive Reads (a : Arena) : List NodeId → Forest → Prop
  | nil : Reads a [] .nil
  | cons {id : NodeId} {siblings : List NodeId} {below next : Forest}
      (hbelow : Reads a (a.childrenOf id) below) (hnext : Reads a siblings next) :
      Reads a (id :: siblings) (.cons (a.label id) (a.hits id) below next)

/-- The arena is a tree, node by node. -/
structure Stores (a : Arena) (t : Trie) : Prop where
  bound_eq : t.bound = a.bound
  hits_eq : t.hits = a.hits root
  reads : a.Reads (a.childrenOf root) t.forest

variable {a : Arena} {paths : List (List UInt8)} {id parent child : NodeId} {ids : List NodeId}
  {f below : Forest} {above path text : List UInt8} {byte : UInt8}

namespace Reads

theorem firstBytes_eq (h : a.Reads ids f) :
    f.firstBytes = ids.map fun id => (a.label id).headD 0 := by
  induction h with
  | nil => rfl
  | cons _ _ _ ihNext => rw [Forest.firstBytes, ihNext, List.map_cons]

/-- Changing what the nodes find changes what is read in the same way. -/
theorem mapHits (h : a.Reads ids f) {g : Hits → Hits} (hnone : g {} = {}) :
    (a.mapHits g).Reads ids (f.mapHits g) := by
  induction h with
  | nil => exact .nil
  | @cons id siblings below next _ _ ihBelow ihNext =>
      rw [Forest.mapHits, ← hits_mapHits hnone a id, ← label_mapHits hnone a id]
      rw [← childrenOf_mapHits hnone a id] at ihBelow
      exact .cons ihBelow ihNext

/-- The sibling whose label begins with a byte is where the byte leads to. -/
theorem step_of_mem (h : a.Reads ids f) (hchild : child ∈ ids)
    (hbyte : (a.label child).head? = some byte)
    (honly : ∀ other ∈ ids, (a.label other).head? = some byte → other = child) :
    ∃ below, a.Reads (a.childrenOf child) below ∧
      f.step byte = Place.onEdge (a.label child).tail (a.hits child) below := by
  induction h with
  | nil => cases hchild
  | @cons id siblings below next hbelow _ _ ihNext =>
      by_cases hsame : id = child
      · subst hsame
        exact ⟨below, hbelow, by rw [Forest.step, if_pos hbyte]⟩
      · have hother : (a.label id).head? ≠ some byte := fun heq =>
          hsame (honly id List.mem_cons_self heq)
        obtain ⟨found, hfound, hstep⟩ :=
          ihNext ((List.mem_cons.mp hchild).resolve_left fun heq => hsame heq.symm)
            fun other hmem => honly other (List.mem_cons_of_mem _ hmem)
        exact ⟨found, hfound, by rw [Forest.step, if_neg hother, hstep]⟩

theorem step_of_not_mem (h : a.Reads ids f) (hnone : ∀ id ∈ ids, (a.label id).head? ≠ some byte) :
    f.step byte = Place.nowhere := by
  induction h with
  | nil => rfl
  | cons _ _ _ ihNext =>
      rw [Forest.step, if_neg (hnone _ List.mem_cons_self),
        ihNext fun other hmem => hnone other (List.mem_cons_of_mem _ hmem)]

end Reads

/-! ## Every arena with paths can be read -/

namespace HasPaths

/-- A child stands under the first byte of its label. -/
theorem headD_label (h : a.HasPaths paths) {slot : UInt8 × NodeId}
    (hslot : slot ∈ (a.node id).children.toList) : (a.label slot.2).headD 0 = slot.1 := by
  rw [Std.TreeMap.mem_toList_iff_getElem?_eq_some] at hslot
  rw [List.headD_eq_head?_getD, h.head?_label hslot, Option.getD_some]

/-- Siblings stand in the order of the first bytes of their labels. -/
theorem sorted_childrenOf (h : a.HasPaths paths) (id : NodeId) :
    (a.childrenOf id).Pairwise fun left right =>
      (a.label left).headD 0 < (a.label right).headD 0 := by
  rw [childrenOf, List.pairwise_map]
  refine Std.TreeMap.ordered_keys_toList.imp_of_mem fun {left right} hleft hright hlt => ?_
  rw [h.headD_label hleft, h.headD_label hright]
  exact Std.compare_eq_lt.mp hlt

/-- Labels that are not empty and siblings in order make a well-formed forest. -/
theorem wellFormed_of_reads (h : a.HasPaths paths) (hreads : a.Reads ids f)
    (hlabels : ∀ id ∈ ids, a.label id ≠ [])
    (hsorted : ids.Pairwise fun left right => (a.label left).headD 0 < (a.label right).headD 0) :
    f.WellFormed := by
  induction hreads with
  | nil => trivial
  | @cons id siblings below next _ hnext ihBelow ihNext =>
      obtain ⟨hfirst, hrest⟩ := List.pairwise_cons.mp hsorted
      refine ⟨hlabels id List.mem_cons_self, ?_, ihBelow ?_ (h.sorted_childrenOf id),
        ihNext (fun other hmem => hlabels other (List.mem_cons_of_mem _ hmem)) hrest⟩
      · rw [hnext.firstBytes_eq, List.forall_mem_map]
        exact hfirst
      · intro child hchild
        obtain ⟨byte, hslot⟩ := mem_childrenOf.mp hchild
        exact h.label_ne_nil hslot

/-- Paths get longer on the way down and no path is longer than all of them together, so reading
ends. -/
theorem exists_reads (h : a.HasPaths paths) (hid : paths[id]? = some path) :
    ∃ below, a.Reads (a.childrenOf id) below := by
  induction hroom : paths.flatten.length - path.length using Nat.strongRecOn
    generalizing id path with
  | _ room ih =>
      have hchildren : ∀ ids ⊆ a.childrenOf id, ∃ f, a.Reads ids f := by
        intro ids hids
        induction ids with
        | nil => exact ⟨.nil, .nil⟩
        | cons child siblings ihNext =>
            obtain ⟨hchild, hsiblings⟩ := List.cons_subset.mp hids
            obtain ⟨byte, hslot⟩ := mem_childrenOf.mp hchild
            obtain ⟨rest, -, hpath⟩ := h.edge hid hslot
            have hle := (List.sublist_flatten_of_mem (List.mem_of_getElem? hpath)).length_le
            have hcloser : paths.flatten.length - (path ++ byte :: rest).length < room := by
              rw [List.length_append, List.length_cons] at hle ⊢
              omega
            obtain ⟨below, hbelow⟩ := ih _ hcloser hpath rfl
            obtain ⟨next, hnext⟩ := ihNext hsiblings
            exact ⟨_, .cons hbelow hnext⟩
      exact hchildren _ (List.Subset.refl _)

theorem exists_stores (h : a.HasPaths paths) : ∃ t, a.Stores t := by
  obtain ⟨forest, hforest⟩ := h.exists_reads h.root_path
  exact ⟨{ bound := a.bound, hits := a.hits root, forest }, rfl, rfl, hforest⟩

/-! ## Places -/

/-- The slot for a byte is where the byte leads to. -/
theorem step_of_child (h : a.HasPaths paths) (hreads : a.Reads (a.childrenOf id) f)
    (hchild : a.child? id byte = some child) :
    ∃ below, a.Reads (a.childrenOf child) below ∧
      f.step byte = Place.onEdge (a.label child).tail (a.hits child) below := by
  refine hreads.step_of_mem (mem_childrenOf.mpr ⟨byte, hchild⟩) (h.head?_label hchild) ?_
  intro other hother hhead
  obtain ⟨first, hfirst⟩ := mem_childrenOf.mp hother
  rw [h.head?_label hfirst, Option.some.injEq] at hhead
  rw [hhead, hchild, Option.some.injEq] at hfirst
  exact hfirst.symm

theorem step_of_free (h : a.HasPaths paths) (hreads : a.Reads (a.childrenOf id) f)
    (hfree : a.child? id byte = none) : f.step byte = Place.nowhere := by
  refine hreads.step_of_not_mem fun child hchild hhead => ?_
  obtain ⟨first, hfirst⟩ := mem_childrenOf.mp hchild
  rw [h.head?_label hfirst, Option.some.injEq] at hhead
  rw [hhead, hfree] at hfirst
  cases hfirst

/-- The places below a node are nodes where there are paths, and they find what is looked up. -/
theorem place_of_reads (h : a.HasPaths paths) (hid : paths[id]? = some above)
    (hreads : a.Reads (a.childrenOf id) f) (byte : UInt8) (rest : List UInt8) :
    (((f.step byte).descend rest).isNode ↔ above ++ byte :: rest ∈ paths) ∧
      ((f.step byte).descend rest).hits = a.lookupFrom id (byte :: rest) := by
  induction hlength : rest.length using Nat.strongRecOn generalizing id above f byte rest with
  | _ length ih =>
      cases hchild : a.child? id byte with
      | none =>
          rw [h.step_of_free hreads hchild, Place.descend_nowhere, lookupFrom_of_free hchild]
          exact ⟨iff_of_false not_false (h.not_mem_of_free hid hchild List.prefix_rfl), rfl⟩
      | some child =>
          obtain ⟨below, hbelow, hstep⟩ := h.step_of_child hreads hchild
          obtain ⟨label, hlabel, hpath⟩ := h.edge hid hchild
          have hout : ¬ label <+: rest → above ++ byte :: rest ∉ paths := by
            intro hnot hmem
            have hbegins := h.label_le_of_mem hid hchild hmem List.prefix_rfl
            rw [hlabel, List.prefix_append_right_inj] at hbegins
            exact hnot (List.cons_prefix_cons.mp hbegins).2
          rw [hstep, hlabel, List.tail_cons]
          cases meeting label rest with
          | same =>
              rw [Place.descend_onEdge, lookupFrom_same hchild hlabel]
              exact ⟨iff_of_true trivial (List.mem_of_getElem? hpath), rfl⟩
          | beyond _ after hafter =>
              obtain ⟨first, after, rfl⟩ := List.exists_cons_of_ne_nil hafter
              have hshorter : after.length < length := by
                rw [← hlength, List.length_append, List.length_cons]
                omega
              have hnext := ih _ hshorter hpath hbelow first after rfl
              rw [List.append_assoc, List.cons_append] at hnext
              rw [Place.descend_append, Place.descend_onEdge, lookupFrom_beyond hchild hlabel]
              exact hnext
          | within _ tail htail =>
              rw [Place.descend_onEdge_append, Place.onEdge_of_ne htail,
                lookupFrom_within hchild hlabel htail]
              exact ⟨iff_of_false not_false (hout (not_append_prefix_self htail rest)), rfl⟩
          | fork common first second tail rest hne =>
              rw [Place.descend_onEdge_fork hne, lookupFrom_fork hchild hlabel hne]
              exact ⟨iff_of_false not_false (hout fun hbegins => by simp [hne] at hbegins), rfl⟩

end HasPaths

/-! ## The stored tree -/

namespace Stores

variable {t : Trie}

theorem wellFormed (hstores : a.Stores t) (h : a.HasPaths paths) : t.forest.WellFormed := by
  refine h.wellFormed_of_reads hstores.reads (fun child hchild => ?_) (h.sorted_childrenOf root)
  obtain ⟨byte, hslot⟩ := mem_childrenOf.mp hchild
  exact h.label_ne_nil hslot

/-- The nodes of the stored tree are at the paths. -/
theorem isNode_iff (hstores : a.Stores t) (h : a.HasPaths paths) (text : List UInt8) :
    (t.place text).isNode ↔ text ∈ paths := by
  cases text with
  | nil => exact iff_of_true trivial (List.mem_of_getElem? h.root_path)
  | cons byte rest => exact (h.place_of_reads h.root_path hstores.reads byte rest).1

theorem hits_place (hstores : a.Stores t) (h : a.HasPaths paths) (text : List UInt8) :
    (t.place text).hits = a.lookup text := by
  cases text with
  | nil =>
      rw [lookup, lookupFrom]
      exact hstores.hits_eq
  | cons byte rest => exact (h.place_of_reads h.root_path hstores.reads byte rest).2

/-- A text finds the same in an arena and in the tree it stores. -/
theorem lookup_eq (hstores : a.Stores t) (h : a.HasPaths paths) (text : List UInt8) :
    t.lookup text = a.lookup text := by
  rw [Trie.lookup_eq_place (hstores.wellFormed h), hstores.hits_place h]

end Stores

/-! ## The order of the nodes -/

/-- What a walk in depth-first order comes by at a node: its label, what it finds and the number of
its children. -/
def shown (a : Arena) (id : NodeId) : List UInt8 × Hits × Nat :=
  (a.label id, a.hits id, (a.childrenOf id).length)

/-- The walk goes over the forest of the first nodes on its stack before it comes to the others. -/
theorem Reads.preorderFrom (h : a.Reads ids f) (budget depth : Nat) (waiting : List NodeId) :
    (a.preorderFrom (f.size + budget) (ids ++ waiting)).map a.shown =
      (f.visits depth).map (fun v => (v.label, v.hits, v.children)) ++
        (a.preorderFrom budget waiting).map a.shown := by
  induction h generalizing budget depth waiting with
  | nil => simp [Forest.size, Forest.visits]
  | @cons id siblings below next hbelow _ ihBelow ihNext =>
      have hsize : (Forest.cons (a.label id) (a.hits id) below next).size + budget =
          below.size + (next.size + budget) + 1 := by
        rw [Forest.size]
        omega
      have hchildren : below.firstBytes.length = (a.childrenOf id).length := by
        rw [hbelow.firstBytes_eq, List.length_map]
      rw [hsize, List.cons_append, Arena.preorderFrom, List.map_cons, ihBelow _ (depth + 1),
        ihNext _ depth, Forest.visits, List.map_cons, List.map_append, hchildren]
      simp only [shown, List.cons_append, List.append_assoc]

/-- The depth-first orders of an arena and of the tree it stores agree. -/
theorem Stores.visits_eq {t : Trie} (hstores : a.Stores t) (h : a.HasPaths paths) :
    t.visits.map (fun v => (v.label, v.hits, v.children)) = a.preorder.map a.shown := by
  have hbudget : a.size ≤ t.forest.size + a.size + 1 := by omega
  have hwalk := hstores.reads.preorderFrom a.size 1 []
  have hchildren : t.forest.firstBytes.length = (a.childrenOf root).length := by
    rw [hstores.reads.firstBytes_eq, List.length_map]
  rw [List.append_nil, preorderFrom_nil, List.map_nil, List.append_nil] at hwalk
  rw [← h.preorderFrom_of_le hbudget, Arena.preorderFrom, List.append_nil, List.map_cons, hwalk,
    Trie.visits, List.map_cons, hchildren, hstores.hits_eq, shown, h.root_label]

end Arena

end PrefixSearch
