import PrefixSearch.Proofs.Arena.Building
import PrefixSearch.Proofs.Arena.SameTree
import PrefixSearch.Proofs.Trie.NodePaths

/-!
# Every tree is stored in an arena

What a well-formed tree finds at all texts is determined by its nodes, as it is for an arena.  So an arena
to which the paths of the nodes were added, with each node made to find what the tree finds at its path,
stores the tree, whatever the tree was made by.
-/

namespace PrefixSearch

namespace Trie

theorem place_append (t : Trie) (text more : List UInt8) :
    t.place (text ++ more) = (t.place text).descend more := by
  rw [place, Place.descend_append, ← place]

/-- What a tree finds inside its edges and outside of them is as its nodes say. -/
theorem followsNodes (t : Trie) :
    FollowsNodes (fun text => (t.place text).isNode) fun text => (t.place text).hits := by
  intro text
  rcases t.place_eq text with hnode | hout | ⟨rest, hits, below, hrest, hedge⟩
  · refine ⟨fun {node} hnext hne => ?_, fun hnone => absurd List.prefix_rfl (hnone text hnode)⟩
    exact absurd (hnext.unique (nextNode_self hnode)).symm hne
  · refine ⟨fun {node} hnext _ => ?_, fun _ => by rw [hout]; rfl⟩
    obtain ⟨more, rfl⟩ := hnext.below
    have hnode := hnext.isNode
    rw [place_append, hout, Place.descend_nowhere] at hnode
    exact hnode.elim
  · have hend : t.place (text ++ rest) = { isNode := True, hits, below } := by
      rw [place_append, hedge, Place.descend_onEdge]
    have hendNode : (t.place (text ++ rest)).isNode := by
      rw [hend]
      trivial
    refine ⟨fun {node} hnext _ => ?_,
      fun hnone => absurd (List.prefix_append text rest) (hnone _ hendNode)⟩
    -- the end of the edge is the first node below the text
    obtain ⟨more, rfl⟩ := hnext.below
    have hfirst := hnext.first _ hendNode (List.prefix_append text rest)
    obtain ⟨tail, rfl⟩ := (List.prefix_append_right_inj text).mp hfirst
    have hnode := hnext.isNode
    rw [place_append, hedge, Place.descend_onEdge_append, Forest.isNode_onEdge] at hnode
    subst hnode
    rw [List.append_nil] at hend hrest hedge
    rw [hend, hedge, Place.onEdge_of_ne hrest]

end Trie

namespace Arena

/-- The nodes can be made to find anything, and keep their paths. -/
theorem HasPaths.exists_finds {a : Arena} {paths : List (List UInt8)} (h : a.HasPaths paths)
    (found : List UInt8 → Hits) :
    ∃ b : Arena, b.HasPaths paths ∧ b.bound = a.bound ∧ b.Finds paths found := by
  -- node by node, in the order of their positions
  have hsome : ∀ count ≤ a.size, ∃ b : Arena, b.HasPaths paths ∧ b.bound = a.bound ∧
      ∀ id < count, ∀ path, paths[id]? = some path → b.hits id = found path := by
    intro count hcount
    induction count with
    | zero => exact ⟨a, h, rfl, fun id hid => absurd hid (Nat.not_lt_zero id)⟩
    | succ count ih =>
        obtain ⟨b, hb, hbound, hfinds⟩ := ih (Nat.le_of_succ_le hcount)
        have hinside : count < b.size := by rwa [← hb.length_eq, h.length_eq]
        obtain ⟨last, hlast⟩ := hb.exists_path hinside
        refine ⟨b.change (fun _ => found last) count, hb.change _ _, hbound, fun id hid path hpath => ?_⟩
        rw [hits_change _ hinside]
        split
        · next hsame =>
          subst hsame
          rw [Option.some.inj (hlast.symm.trans hpath)]
        · next hother =>
          exact hfinds id (Nat.lt_of_le_of_ne (Nat.le_of_lt_succ hid) hother) path hpath
  obtain ⟨b, hb, hbound, hfinds⟩ := hsome a.size (Nat.le_refl _)
  exact ⟨b, hb, hbound, fun id path hpath => hfinds id (h.lt_size hpath) path hpath⟩

theorem exists_built [Search] (bound : Nat) (texts : List (List UInt8)) :
    ∃ a : Arena, Built a texts ∧ a.bound = bound := by
  induction texts using List.reverseRecOn with
  | nil => exact ⟨{ bound }, .new bound, rfl⟩
  | append_singleton texts text ih =>
      obtain ⟨a, ha, hbound⟩ := ih
      obtain ⟨paths, hpaths, -⟩ := ha.exists_paths
      obtain ⟨added, hadded⟩ := hpaths.insert {} { text, id := 0, exact := true }
      exact ⟨_, ha.insert {} { text, id := 0, exact := true }, hadded.bound_eq.trans hbound⟩

/-- Every well-formed tree is stored in an arena. -/
theorem exists_stores {t : Trie} (ht : t.forest.WellFormed) :
    ∃ a paths, HasPaths a paths ∧ a.Stores t := by
  obtain ⟨a, ha, hbound⟩ := exists_built t.bound (t.nodes.map Prod.fst)
  obtain ⟨paths, hpaths, hspanned⟩ := ha.exists_paths
  have hlisted : ∀ text, text ∈ t.nodes.map Prod.fst ↔ (t.place text).isNode := by
    intro text
    simp only [List.mem_map, Prod.exists, exists_and_right, exists_eq_right, Trie.mem_nodes_iff ht]
    exact ⟨fun ⟨_, hnode, _⟩ => hnode, fun hnode => ⟨_, hnode, rfl⟩⟩
  have hnodes : ∀ text, (t.place text).isNode ↔ text ∈ paths := by
    intro text
    rw [hspanned]
    refine ⟨fun hnode => Spanned.of_mem ((hlisted text).mpr hnode), ?_⟩
    rintro (rfl | htext | ⟨left, hleft, right, hright, rfl⟩)
    · trivial
    · exact (hlisted text).mp htext
    · exact t.closed_isNode left right ((hlisted left).mp hleft) ((hlisted right).mp hright)
  obtain ⟨b, hb, hsame, hfinds⟩ := hpaths.exists_finds fun text => (t.place text).hits
  have hfollows : FollowsNodes (· ∈ paths) fun text => (t.place text).hits := by
    rw [← funext fun text => propext (hnodes text)]
    exact t.followsNodes
  exact ⟨b, paths, hb, hb.stores_of_places ht (hbound.symm.trans hsame.symm) hnodes
    fun text => (hb.lookup_eq hfinds hfollows text).symm⟩

end Arena

end PrefixSearch
