import PrefixSearch.Proofs.Arena.AddedText
import PrefixSearch.Proofs.Arena.AddedTree
import PrefixSearch.Proofs.Arena.Reading
import PrefixSearch.Proofs.Trie.Merging

/-!
# One tree in two forms

The same additions, made to an arena and to a tree of first children and next siblings, give an
arena that stores the tree.  A tree is determined by its nodes and by what they find, and both are
known for the two forms: the nodes are the least set that is closed under common prefixes, and what
a text finds depends on that text alone, not on the way in which edges were cut or nodes were
appended.
-/

namespace PrefixSearch

/-! ## The nodes of a well-formed tree -/

namespace Forest

/-- One byte leads to a node, into an edge or out of the tree. -/
theorem step_cases (f : Forest) (byte : UInt8) :
    (f.step byte).isNode ∨ f.step byte = Place.nowhere ∨
      ∃ rest hits below, rest ≠ [] ∧ (f.step byte).below = .cons rest hits below .nil := by
  induction f with
  | nil => exact Or.inr (Or.inl rfl)
  | cons label hits below next _ ihNext =>
      unfold step
      split
      · by_cases htail : label.tail = []
        · exact Or.inl (by rw [htail]; trivial)
        · exact Or.inr (Or.inr ⟨_, hits, below, htail, by rw [Place.onEdge_of_ne htail]⟩)
      · exact ihNext

end Forest

namespace Place

theorem wellFormed_descend {p : Place} (hp : p.below.WellFormed) (text : List UInt8) :
    (p.descend text).below.WellFormed := by
  induction text generalizing p with
  | nil => exact hp
  | cons byte text ih => exact ih (Forest.wellFormed_step hp byte)

/-- A place that is in the tree has a node at or below it. -/
theorem Inside.exists_isNode {p : Place} (hinside : p.Inside) (hp : p.below.WellFormed) :
    ∃ rest, (p.descend rest).isNode := by
  rcases hinside with hnode | hbelow
  · exact ⟨[], hnode⟩
  · cases hforest : p.below with
    | nil => exact absurd hforest hbelow
    | cons label hits below next =>
        rw [hforest] at hp
        obtain ⟨first, rest, rfl⟩ := List.exists_cons_of_ne_nil hp.1
        refine ⟨first :: rest, ?_⟩
        rw [descend_cons, hforest, Forest.descend_label rfl]
        trivial

end Place

namespace Trie

variable {t : Trie}

/-- Where two texts in a tree part, there is a node. -/
theorem isNode_of_fork {text : List UInt8} {a b : UInt8} (hne : a ≠ b)
    (hleft : t.place (text ++ [a]) ≠ Place.nowhere)
    (hright : t.place (text ++ [b]) ≠ Place.nowhere) : (t.place text).isNode := by
  rw [place_snoc] at hleft hright
  rcases text.eq_nil_or_concat with rfl | ⟨init, byte, rfl⟩
  · trivial
  · rw [List.concat_eq_append, place_snoc] at hleft hright ⊢
    rcases (t.place init).below.step_cases byte with
      hnode | hout | ⟨rest, hits, below, hrest, hedge⟩
    · exact hnode
    · rw [hout] at hleft
      exact absurd rfl hleft
    · -- inside an edge only one byte leads on
      obtain ⟨first, rest, rfl⟩ := List.exists_cons_of_ne_nil hrest
      rw [hedge] at hleft hright
      have hfirst : ∀ {byte}, (Forest.cons (first :: rest) hits below .nil).step byte ≠
          Place.nowhere → first = byte := fun hin => Decidable.byContradiction fun hother =>
        hin (by rw [Forest.step_cons_of_ne hother, Forest.step_nil])
      exact absurd ((hfirst hleft).symm.trans (hfirst hright)) hne

/-- The nodes of a tree are closed under common prefixes. -/
theorem closed_isNode (t : Trie) : ClosedUnderPrefixes fun text => (t.place text).isNode := by
  intro left right hleft hright
  have hway : ∀ {text byte rest}, (t.place (text ++ byte :: rest)).isNode →
      t.place (text ++ [byte]) ≠ Place.nowhere := by
    intro text byte rest hnode hout
    rw [place, ← List.singleton_append, ← List.append_assoc, Place.descend_append] at hnode
    rw [place] at hout
    rw [hout, Place.descend_nowhere] at hnode
    exact hnode
  cases meeting left right with
  | same => rwa [commonPrefix_self]
  | beyond _ rest _ => rwa [commonPrefix_eq_left (List.prefix_append left rest)]
  | within _ tail _ => rwa [commonPrefix_comm, commonPrefix_eq_left (List.prefix_append right tail)]
  | fork common a b tail rest hne =>
      have hfork : commonPrefix (common ++ a :: tail) (common ++ b :: rest) = common := by
        rw [commonPrefix_append, commonPrefix_cons_of_ne hne, List.append_nil]
      rw [hfork]
      exact isNode_of_fork hne (hway hleft) (hway hright)

/-- Where a byte leads on in a tree, it leads to a node. -/
theorem exists_isNode (ht : t.forest.WellFormed) {text : List UInt8}
    (hinside : (t.place text).Inside) :
    ∃ node, text <+: node ∧ (t.place node).isNode := by
  obtain ⟨rest, hnode⟩ := hinside.exists_isNode (Place.wellFormed_descend (p := t.root) ht text)
  refine ⟨text ++ rest, List.prefix_append text rest, ?_⟩
  rwa [place, Place.descend_append]

/-- What a place finds after a text was added. -/
theorem hits_place_addedTo [Search] (table : ResultTable) (ht : t.forest.WellFormed) (term : Term)
    (text : List UInt8) :
    ((t.insert table term).place text).hits =
      term.addedTo table t.bound (fun text => (t.place text).hits) text := by
  rw [Term.addedTo]
  by_cases hway : text <+: term.text
  · rw [if_pos hway]
    obtain ⟨rest, hrest⟩ := hway
    rw [place_insert_of_append table ht hrest]
    by_cases hend : rest = []
    · rw [hend, List.append_nil] at hrest
      rw [hend, if_pos hrest, Place.graft_nil]
      rfl
    · have hne : text ≠ term.text := fun heq => by
        rw [heq, List.append_right_eq_self] at hrest
        exact hend hrest
      rw [if_neg hne, Place.graft_of_ne _ _ hend]
  · have hne : text ≠ term.text := fun heq => hway (heq ▸ List.prefix_rfl)
    rw [place_insert_off_way table ht hway, if_neg hne, if_neg hway]

end Trie

namespace Arena

variable {a other : Arena} {t u : Trie} {paths otherPaths : List (List UInt8)}

/-- An arena stores a tree if the tree has its nodes and finds the same. -/
theorem HasPaths.stores_of_places (h : a.HasPaths paths) (ht : t.forest.WellFormed)
    (hbound : t.bound = a.bound) (hnodes : ∀ text, (t.place text).isNode ↔ text ∈ paths)
    (hhits : ∀ text, (t.place text).hits = a.lookup text) : a.Stores t := by
  obtain ⟨stored, hstored⟩ := h.exists_stores
  have hsame : t = stored := by
    refine Trie.eq_of_places ht (hstored.wellFormed h) (hbound.trans hstored.bound_eq.symm)
      (fun text => ?_) fun text => ?_
    · rw [hnodes, hstored.isNode_iff h]
    · rw [hhits, hstored.hits_place h]
  rwa [hsame]

namespace Stores

theorem new (bound : Nat) : Stores { bound } { bound } where
  bound_eq := rfl
  hits_eq := rfl
  reads := .nil

theorem mapHits (hstores : a.Stores t) {f : Hits → Hits} (hnone : f {} = {}) :
    (a.mapHits f).Stores (t.mapHits f) where
  bound_eq := hstores.bound_eq
  hits_eq := by
    rw [hits_mapHits hnone, ← hstores.hits_eq]
    rfl
  reads := by
    rw [childrenOf_mapHits hnone]
    exact hstores.reads.mapHits hnone

variable [Search]

/-- Adding a text to both forms. -/
theorem insert (hstores : a.Stores t) (h : a.HasPaths paths) (table : ResultTable) (term : Term) :
    (a.insert table term).Stores (t.insert table term) := by
  have ht := hstores.wellFormed h
  obtain ⟨added, hadded⟩ := h.insert table term
  have hisNode := Trie.isNode_place_insert table ht term
  refine hadded.hasPaths.stores_of_places (Trie.wellFormed_insert table ht term) ?_
    (fun text => ⟨fun hnode => ?_, ?_⟩) fun text => ?_
  · rw [Trie.bound_insert, hadded.bound_eq, hstores.bound_eq]
  · rcases (hisNode text).mp hnode with hold | rfl | ⟨x, y, hne, hway, hinside⟩
    · exact List.mem_append_left added ((hstores.isNode_iff h text).mp hold)
    · exact hadded.text_mem
    · -- the text and an older one part here
      obtain ⟨node, hbelow, hnode⟩ := Trie.exists_isNode ht hinside
      rw [← commonPrefix_fork hne hway hbelow]
      exact hadded.hasPaths.commonPrefix_mem hadded.text_mem
        (List.mem_append_left added ((hstores.isNode_iff h node).mp hnode))
  · exact within_of_common hadded.common (Trie.closed_isNode _)
      (fun old hold => (hisNode old).mpr (Or.inl ((hstores.isNode_iff h old).mpr hold)))
      ((hisNode term.text).mpr (Or.inr (Or.inl rfl))) text
  · have hsame : (fun text => (t.place text).hits) = a.lookup := funext (hstores.hits_place h)
    rw [Trie.hits_place_addedTo table ht, hsame, h.lookup_insert, hstores.bound_eq]

/-- Adding a tree to both forms. -/
theorem merge (hstores : a.Stores t) (h : a.HasPaths paths) (hother : other.Stores u)
    (hotherPaths : other.HasPaths otherPaths) (table : ResultTable) :
    (a.merge table other).Stores (t.merge table u) := by
  have ht := hstores.wellFormed h
  have hu := hother.wellFormed hotherPaths
  have hplace := Trie.place_merge table ht hu
  obtain ⟨added, hmerged, hsubset, hwithin⟩ := h.merge table hotherPaths
    (Trie.closed_isNode (t.merge table u))
    (fun text htext => by
      rw [hplace]
      exact Or.inr (Or.inl ((hstores.isNode_iff h text).mpr htext)))
    (fun text htext => by
      rw [hplace]
      exact Or.inl ((hother.isNode_iff hotherPaths text).mpr htext))
  refine hmerged.stores_of_places (Trie.wellFormed_merge table ht hu) ?_
    (fun text => ⟨fun hnode => ?_, hwithin text⟩) fun text => ?_
  · rw [h.bound_merge table hotherPaths]
    exact hstores.bound_eq
  · rw [hplace] at hnode
    rcases hnode with hright | hleft | ⟨x, y, hne, hright, hleft⟩
    · exact hsubset ((hother.isNode_iff hotherPaths text).mp hright)
    · exact List.mem_append_left added ((hstores.isNode_iff h text).mp hleft)
    · -- a text of the one tree and one of the other part here
      rw [← Trie.place_snoc] at hright hleft
      obtain ⟨lower, hlower, hlowerNode⟩ := Trie.exists_isNode hu hright
      obtain ⟨node, hbelow, hnode⟩ := Trie.exists_isNode ht hleft
      rw [← commonPrefix_fork hne hlower hbelow]
      exact hmerged.commonPrefix_mem (hsubset ((hother.isNode_iff hotherPaths lower).mp hlowerNode))
        (List.mem_append_left added ((hstores.isNode_iff h node).mp hnode))
  · rw [hplace, h.lookup_merge table hotherPaths, ← hstores.hits_place h,
      ← hother.hits_place hotherPaths, ← hstores.bound_eq]
    rfl

end Stores

variable [Search]

/-- An arena and a tree that the same operations make. -/
inductive Alike : Arena → Trie → Prop
  | new (bound : Nat) : Alike { bound } { bound }
  | insert {a : Arena} {t : Trie} (table : ResultTable) (term : Term) (ha : Alike a t) :
      Alike (a.insert table term) (t.insert table term)
  | merge {a other : Arena} {t u : Trie} (table : ResultTable) (ha : Alike a t)
      (hother : Alike other u) : Alike (a.merge table other) (t.merge table u)
  | replace {a : Arena} {t : Trie} (table : ResultTable) (old new : Id) (ha : Alike a t) :
      Alike (a.replace table old new) (t.replace table old new)
  | sort {a : Arena} {t : Trie} (table : ResultTable) (ha : Alike a t) :
      Alike (a.sort table) (t.sort table)

/-- The arena stores the tree. -/
theorem Alike.stores (ha : Alike a t) : ∃ paths, a.HasPaths paths ∧ a.Stores t := by
  induction ha with
  | new bound => exact ⟨_, HasPaths.new bound, Stores.new bound⟩
  | insert table term _ ih =>
      obtain ⟨paths, h, hstores⟩ := ih
      obtain ⟨added, hadded⟩ := h.insert table term
      exact ⟨_, hadded.hasPaths, hstores.insert h table term⟩
  | merge table _ _ ih ihOther =>
      obtain ⟨paths, h, hstores⟩ := ih
      obtain ⟨otherPaths, hotherPaths, hother⟩ := ihOther
      obtain ⟨added, hmerged, -⟩ := h.merge table hotherPaths closedUnderPrefixes_true
        (fun _ _ => trivial) fun _ _ => trivial
      exact ⟨_, hmerged, hstores.merge h hother hotherPaths table⟩
  | @replace a t table old new _ ih =>
      obtain ⟨paths, h, hstores⟩ := ih
      refine ⟨paths, h.mapHits rfl, ?_⟩
      rw [Trie.replace, hstores.bound_eq]
      exact hstores.mapHits rfl
  | sort table _ ih =>
      obtain ⟨paths, h, hstores⟩ := ih
      exact ⟨paths, h.mapHits rfl, hstores.mapHits rfl⟩

/-- Every text finds the same in both forms, and a walk in depth-first order comes by the same
nodes. -/
theorem Alike.agree (ha : Alike a t) :
    (∀ text, t.lookup text = a.lookup text) ∧
      t.visits.map (fun v => (v.label, v.hits, v.children)) = a.preorder.map a.shown := by
  obtain ⟨paths, h, hstores⟩ := ha.stores
  exact ⟨hstores.lookup_eq h, hstores.visits_eq h⟩

end Arena

end PrefixSearch
