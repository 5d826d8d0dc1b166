import PrefixSearch.Proofs.Trie.Members

/-!
# Nodes and the texts that lead to them

The nodes that are listed with their paths are the places that are nodes.  A place inside an edge has
the completions of the edge's lower end, and every text with exact results that goes through it goes
through that end as well.  So what is said of the completions of nodes and of the exact results below
them holds of all places.
-/

namespace PrefixSearch

namespace Forest

/-- A byte leads into an edge, to the end of one, or out of the tree. -/
theorem step_eq (f : Forest) (byte : UInt8) :
    f.step byte = Place.nowhere ∨
      ∃ rest hits below, f.step byte = Place.onEdge rest hits below := by
  induction f with
  | nil => exact Or.inl rfl
  | cons label hits below next _ ihNext =>
      unfold step
      split
      · exact Or.inr ⟨_, _, _, rfl⟩
      · exact ihNext

/-- A place that is a node is listed. -/
theorem mem_nodes_of_isNode {f : Forest} (hf : f.WellFormed) {above rest : List UInt8}
    {first : UInt8} (hnode : ((f.step first).descend rest).isNode) :
    (above ++ first :: rest, ((f.step first).descend rest).hits) ∈ f.nodes above := by
  induction f generalizing above first rest with
  | nil =>
      rw [step_nil, Place.descend_nowhere] at hnode
      exact absurd hnode id
  | cons label hits below next ihBelow ihNext =>
      obtain ⟨hlabel, -, hbelow, hnext⟩ := hf
      obtain ⟨byte, tail, rfl⟩ := List.exists_cons_of_ne_nil hlabel
      rw [nodes, List.mem_cons, List.mem_append]
      by_cases hfirst : byte = first
      · subst hfirst
        rw [step_cons_self] at hnode ⊢
        cases meeting tail rest with
        | same =>
            rw [Place.descend_onEdge]
            exact Or.inl rfl
        | beyond _ more hmore =>
            obtain ⟨next, more, rfl⟩ := List.exists_cons_of_ne_nil hmore
            rw [Place.descend_append, Place.descend_onEdge, Place.descend_cons] at hnode ⊢
            have hpath : above ++ byte :: (tail ++ next :: more) =
                above ++ byte :: tail ++ next :: more := by simp
            rw [hpath]
            exact Or.inr (Or.inl (ihBelow hbelow hnode))
        | within _ tail htail =>
            rw [Place.descend_onEdge_append, isNode_onEdge] at hnode
            exact absurd hnode htail
        | fork common a b tail rest hne =>
            rw [Place.descend_onEdge_fork hne] at hnode
            exact absurd hnode id
      · rw [step_cons_of_ne hfirst] at hnode ⊢
        exact Or.inr (Or.inr (ihNext hnext hnode))

theorem All.of_mem_nodes {P : Hits → Prop} {f : Forest} {above : List UInt8}
    {node : List UInt8 × Hits} (hf : f.All P) (hnode : node ∈ f.nodes above) : P node.2 := by
  induction f generalizing above with
  | nil => cases hnode
  | cons label hits below next ihBelow ihNext =>
      obtain ⟨hhits, hbelow, hnext⟩ := hf
      rw [nodes, List.mem_cons, List.mem_append] at hnode
      rcases hnode with rfl | hnode | hnode
      · exact hhits
      · exact ihBelow hbelow hnode
      · exact ihNext hnext hnode

/-- Changing what the nodes find keeps their paths. -/
theorem nodes_mapHits (g : Hits → Hits) (f : Forest) (above : List UInt8) :
    (f.mapHits g).nodes above = (f.nodes above).map fun node => (node.1, g node.2) := by
  induction f generalizing above with
  | nil => rfl
  | cons label hits below next ihBelow ihNext =>
      simp only [mapHits, nodes, ihBelow, ihNext, List.map_cons, List.map_append]

end Forest

namespace Trie

variable {t : Trie} {path lower : List UInt8} {id : Id}

theorem mem_nodes_iff (ht : t.forest.WellFormed) {hits : Hits} :
    (path, hits) ∈ t.nodes ↔ (t.place path).isNode ∧ (t.place path).hits = hits := by
  refine ⟨place_of_mem_nodes ht, ?_⟩
  rintro ⟨hnode, rfl⟩
  cases path with
  | nil => exact List.mem_cons_self
  | cons first rest => exact List.mem_cons_of_mem _ (Forest.mem_nodes_of_isNode ht hnode)

theorem All.of_mem_nodes {P : Hits → Prop} {node : List UInt8 × Hits} (ht : t.All P)
    (hnode : node ∈ t.nodes) : P node.2 := by
  rcases List.mem_cons.mp hnode with rfl | hnode
  · exact ht.1
  · exact ht.2.of_mem_nodes hnode

theorem nodes_mapHits (g : Hits → Hits) (t : Trie) :
    (t.mapHits g).nodes = t.nodes.map fun node => (node.1, g node.2) := by
  simp only [nodes, mapHits, Forest.nodes_mapHits, List.map_cons]

/-- A place other than the root is on an edge, at the end of one, or out of the tree. -/
theorem place_eq (t : Trie) (path : List UInt8) :
    (t.place path).isNode ∨ t.place path = Place.nowhere ∨
      ∃ rest hits below, rest ≠ [] ∧ t.place path = Place.onEdge rest hits below := by
  rcases path.eq_nil_or_concat with rfl | ⟨init, byte, rfl⟩
  · exact Or.inl trivial
  · rw [List.concat_eq_append, place_snoc]
    rcases (t.place init).below.step_eq byte with hout | ⟨rest, hits, below, hedge⟩
    · exact Or.inr (Or.inl hout)
    · rw [hedge]
      by_cases hrest : rest = []
      · exact Or.inl ((Forest.isNode_onEdge rest hits below).mpr hrest)
      · exact Or.inr (Or.inr ⟨rest, hits, below, hrest, rfl⟩)

theorem not_mem_exact_onEdge {rest : List UInt8} (hrest : rest ≠ []) (hits : Hits)
    (below : Forest) : id ∉ (Place.onEdge rest hits below).hits.exact := by
  rw [Place.onEdge_of_ne hrest]
  exact List.not_mem_nil

/-- Only nodes have exact results. -/
theorem isNode_of_mem_exact (hid : id ∈ (t.place path).hits.exact) : (t.place path).isNode := by
  rcases t.place_eq path with hnode | hout | ⟨rest, hits, below, hrest, hedge⟩
  · exact hnode
  · rw [hout] at hid
    exact absurd hid List.not_mem_nil
  · rw [hedge] at hid
    exact absurd hid (not_mem_exact_onEdge hrest hits below)

/-- On the way to a text with exact results, a place has the completions of a node that is on the
rest of the way. -/
theorem exists_isNode_between (hbelow : path <+: lower) (hid : id ∈ (t.place lower).hits.exact) :
    ∃ node, path <+: node ∧ node <+: lower ∧ (t.place node).isNode ∧
      (t.place node).hits.completions = (t.place path).hits.completions := by
  rcases t.place_eq path with hnode | hout | ⟨rest, hits, below, hrest, hedge⟩
  · exact ⟨path, List.prefix_refl path, hbelow, hnode, rfl⟩
  · obtain ⟨more, rfl⟩ := hbelow
    have hnowhere : t.place (path ++ more) = Place.nowhere := by
      rw [place, Place.descend_append, ← place, hout, Place.descend_nowhere]
    rw [hnowhere] at hid
    exact absurd hid List.not_mem_nil
  · obtain ⟨more, rfl⟩ := hbelow
    have hway : ∀ text, t.place (path ++ text) = (Place.onEdge rest hits below).descend text := by
      intro text
      rw [place, Place.descend_append, ← place, hedge]
    have hend : t.place (path ++ rest) = { isNode := True, hits, below } := by
      rw [hway, Place.descend_onEdge]
    have hreached : rest <+: more := by
      rw [hway] at hid
      cases meeting rest more with
      | same => exact List.prefix_refl rest
      | beyond _ more _ => exact List.prefix_append rest more
      | within _ tail htail =>
          rw [Place.descend_onEdge_append] at hid
          exact absurd hid (not_mem_exact_onEdge htail hits below)
      | fork common a b tail rest hne =>
          rw [Place.descend_onEdge_fork hne] at hid
          exact absurd hid List.not_mem_nil
    refine ⟨path ++ rest, List.prefix_append path rest, ?_, ?_, ?_⟩
    · exact (List.prefix_append_right_inj path).mpr hreached
    · rw [hend]
      trivial
    · rw [hend, hedge, Place.onEdge_of_ne hrest]

end Trie

end PrefixSearch
