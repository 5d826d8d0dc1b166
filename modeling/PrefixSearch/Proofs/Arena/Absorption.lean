import PrefixSearch.Proofs.Arena.Descent
import PrefixSearch.Proofs.Arena.Traversal

/-!
# How far a tree has been added

A tree is added node by node.  A text has got what it finds there when the first node at or below it
was worked off, and a text inside an edge already when the merge went down that edge.  So the nodes
that were taken and those that wait tell which texts have got theirs, `Reached`, and every step adds
to these texts those of one node or one edge, all of which had not got theirs before.
-/

namespace PrefixSearch

namespace Arena

/-! ## Texts that have got what they find -/

/-- What is found when some texts have got what another tree finds there. -/
structure Absorbed [Search] (table : ResultTable) (bound : Nat) (got : List UInt8 → Prop)
    (given mine found : List UInt8 → Hits) : Prop where
  got_eq : ∀ text, got text → found text = Hits.absorb table bound (given text) (mine text)
  kept_eq : ∀ text, ¬ got text → found text = mine text

namespace Absorbed

variable [Search] {table : ResultTable} {bound : Nat} {got more : List UInt8 → Prop}
  {given mine found : List UInt8 → Hits} {above path : List UInt8}

/-- A node gets what the other tree finds at its path. -/
theorem change (h : Absorbed table bound got given mine found) (hnew : ¬ got path)
    (hmore : ∀ text, more text ↔ got text ∨ text = path) :
    Absorbed table bound more given mine
      (changedAt (Hits.absorb table bound (given path)) path found) where
  got_eq text htext := by
    by_cases hsame : text = path
    · rw [hsame, changedAt_self, h.kept_eq path hnew]
    · rw [changedAt_of_ne hsame, h.got_eq text (((hmore text).mp htext).resolve_right hsame)]
  kept_eq text htext := by
    rw [hmore, not_or] at htext
    rw [changedAt_of_ne htext.2, h.kept_eq text htext.1]

/-- The texts inside an edge get the completions of its lower end. -/
theorem pass (h : Absorbed table bound got given mine found) {hits : Hits}
    (hnew : ∀ text, Between above path text → ¬ got text)
    (hedge : ∀ text, Between above path text → given text = { completions := hits.completions })
    (hmore : ∀ text, more text ↔ got text ∨ Between above path text) :
    Absorbed table bound more given mine
      (passed (Hits.completeAll table bound hits) above path found) where
  got_eq text htext := by
    by_cases hinside : Between above path text
    · rw [passed, if_pos hinside, h.kept_eq text (hnew text hinside), hedge text hinside]
      rfl
    · rw [passed_of_not_between hinside,
        h.got_eq text (((hmore text).mp htext).resolve_right hinside)]
  kept_eq text htext := by
    rw [hmore, not_or] at htext
    rw [passed_of_not_between htext.2, h.kept_eq text htext.1]

end Absorbed

/-! ## Which texts these are -/

/-- The first node at or below a text was taken, or it waits and the text lies inside its edge. -/
def Reached (paths : List (List UInt8)) (done waiting : List NodeId) (text : List UInt8) : Prop :=
  ∃ id path, paths[id]? = some path ∧ NextNode (· ∈ paths) text path ∧
    (id ∈ done ∨ id ∈ waiting ∧ text ≠ path)

variable {a : Arena} {paths : List (List UInt8)} {done pending waiting : List NodeId}
  {parent child source : NodeId} {above lower path text : List UInt8}

namespace HasPaths

theorem not_reached_start (h : a.HasPaths paths) : ¬ Reached paths [] [root] text := by
  rintro ⟨id, path, hid, hnext, hdone | ⟨hwaits, hne⟩⟩
  · cases hdone
  · rw [List.mem_singleton.mp hwaits, h.root_path, Option.some.injEq] at hid
    subst hid
    exact hne (List.prefix_nil.mp hnext.below)

/-- The texts that have the lower end of an edge as their first node. -/
theorem nextNode_edge (h : a.HasPaths paths) (hchild : child ∈ a.childrenOf parent)
    (hparent : paths[parent]? = some above) (hpath : paths[child]? = some lower)
    (htext : above <+: text) (hne : text ≠ above) (hlower : text <+: lower) :
    NextNode (· ∈ paths) text lower := by
  obtain ⟨byte, hslot⟩ := mem_childrenOf.mp hchild
  obtain ⟨below, hlabel, hbelow⟩ := h.edge hparent hslot
  rw [hpath, Option.some.injEq] at hbelow
  subst hbelow
  obtain ⟨rest, rfl⟩ := htext
  cases rest with
  | nil => exact absurd (List.append_nil above) hne
  | cons first rest =>
      have hbegins := (List.prefix_append_right_inj above).mp hlower
      obtain ⟨rfl, -⟩ := List.cons_prefix_cons.mp hbegins
      rw [← hlabel] at hbegins ⊢
      exact h.nextNode hparent hslot hbegins

theorem between_iff_nextNode (h : a.HasPaths paths) (hchild : child ∈ a.childrenOf parent)
    (hparent : paths[parent]? = some above) (hpath : paths[child]? = some lower) :
    Between above lower text ↔ NextNode (· ∈ paths) text lower ∧ text ≠ lower := by
  refine ⟨fun hbetween => ⟨h.nextNode_edge hchild hparent hpath hbetween.1.1 hbetween.1.2
    hbetween.2.1, hbetween.2.2⟩, fun ⟨hnext, hne⟩ => ?_⟩
  obtain ⟨byte, hslot⟩ := mem_childrenOf.mp hchild
  obtain ⟨below, -, hbelow⟩ := h.edge hparent hslot
  rw [hpath, Option.some.injEq] at hbelow
  subst hbelow
  -- a text that is not longer than the upper end has that as a node below it
  have hlonger : ¬ text <+: above := fun hshort => by
    have hback := (hnext.first above (List.mem_of_getElem? hparent) hshort).length_le
    rw [List.length_append, List.length_cons] at hback
    omega
  have hline := List.prefix_or_prefix_of_prefix hnext.below (List.prefix_append above _)
  exact ⟨⟨hline.resolve_left hlonger, fun heq => hlonger (heq ▸ List.prefix_rfl)⟩,
    hnext.below, hne⟩

end HasPaths

namespace Frontier

/-- Nothing at or below an edge is reached before its lower end comes to the stack. -/
theorem not_reached (h : a.Frontier done (pending ++ waiting)) (hpaths : a.HasPaths paths)
    (hchild : child ∈ pending) (hpath : paths[child]? = some lower) {new : List UInt8}
    (hnew : NextNode (· ∈ paths) new lower) (htext : new <+: text) :
    ¬ Reached paths done waiting text := by
  rintro ⟨id, path, hid, hnext, hmem⟩
  have hbelow := hnew.first path hnext.isNode (htext.trans hnext.below)
  have hapart := List.nodup_append.mp h.nodup
  have hfree : child ∉ done := fun hdone =>
    hapart.2.2 child hdone child (List.mem_append_left _ hchild) rfl
  have hwaits : child ∉ waiting := fun hwaits =>
    (List.nodup_append.mp hapart.2.1).2.2 child hchild child hwaits rfl
  have hthere : id ∈ done ++ (pending ++ waiting) ∧ id ≠ child := by
    rcases hmem with hdone | ⟨hstack, -⟩
    · exact ⟨List.mem_append_left _ hdone, fun heq => hfree (heq ▸ hdone)⟩
    · exact ⟨List.mem_append_right _ (List.mem_append_right _ hstack),
        fun heq => hwaits (heq ▸ hstack)⟩
  have hne : lower ≠ path := by
    rintro rfl
    exact hthere.2 (hpaths.eq_of_path hid hpath)
  exact hfree (h.above_mem_done hpaths hthere.1 hid hpath hbelow hne)

theorem not_reached_source (h : a.Frontier done (source :: waiting)) (hpaths : a.HasPaths paths)
    (hpath : paths[source]? = some path) : ¬ Reached paths done (source :: waiting) path := by
  rintro ⟨id, node, hid, hnext, hmem⟩
  obtain rfl := hnext.unique (nextNode_self (List.mem_of_getElem? hpath))
  rcases hmem with hdone | ⟨-, hne⟩
  · exact h.not_mem_done (hpaths.eq_of_path hid hpath ▸ hdone)
  · exact hne rfl

end Frontier

/-- Taking a node reaches its path. -/
theorem reached_take_iff (hpath : paths[source]? = some path) :
    Reached paths (done ++ [source]) waiting text ↔
      Reached paths done (source :: waiting) text ∨ text = path := by
  constructor
  · rintro ⟨id, node, hid, hnext, hmem | ⟨hwaits, hne⟩⟩
    · rcases List.mem_append.mp hmem with hdone | hself
      · exact Or.inl ⟨id, node, hid, hnext, Or.inl hdone⟩
      · rw [List.mem_singleton] at hself
        by_cases hsame : text = node
        · rw [hself, hpath, Option.some.injEq] at hid
          exact Or.inr (hsame.trans hid.symm)
        · exact Or.inl ⟨id, node, hid, hnext, Or.inr ⟨by simp [hself], hsame⟩⟩
    · exact Or.inl ⟨id, node, hid, hnext, Or.inr ⟨List.mem_cons_of_mem _ hwaits, hne⟩⟩
  · rintro (⟨id, node, hid, hnext, hmem | ⟨hwaits, hne⟩⟩ | rfl)
    · exact ⟨id, node, hid, hnext, Or.inl (List.mem_append_left _ hmem)⟩
    · rcases List.mem_cons.mp hwaits with hself | hwaits
      · exact ⟨id, node, hid, hnext, Or.inl (by simp [hself])⟩
      · exact ⟨id, node, hid, hnext, Or.inr ⟨hwaits, hne⟩⟩
    · exact ⟨source, _, hpath, nextNode_self (List.mem_of_getElem? hpath), Or.inl (by simp)⟩

/-- Putting a node on the stack reaches the texts inside its edge. -/
theorem reached_push_iff (hpaths : a.HasPaths paths) (hchild : child ∈ a.childrenOf parent)
    (hparent : paths[parent]? = some above) (hpath : paths[child]? = some lower) :
    Reached paths done (child :: waiting) text ↔
      Reached paths done waiting text ∨ Between above lower text := by
  rw [hpaths.between_iff_nextNode hchild hparent hpath]
  constructor
  · rintro ⟨id, node, hid, hnext, hdone | ⟨hwaits, hne⟩⟩
    · exact Or.inl ⟨id, node, hid, hnext, Or.inl hdone⟩
    · rcases List.mem_cons.mp hwaits with rfl | hwaits
      · rw [hpath, Option.some.injEq] at hid
        exact Or.inr (hid ▸ ⟨hnext, hne⟩)
      · exact Or.inl ⟨id, node, hid, hnext, Or.inr ⟨hwaits, hne⟩⟩
  · rintro (⟨id, node, hid, hnext, hdone | ⟨hwaits, hne⟩⟩ | ⟨hnext, hne⟩)
    · exact ⟨id, node, hid, hnext, Or.inl hdone⟩
    · exact ⟨id, node, hid, hnext, Or.inr ⟨List.mem_cons_of_mem _ hwaits, hne⟩⟩
    · exact ⟨child, lower, hpath, hnext, Or.inr ⟨List.mem_cons_self, hne⟩⟩

end Arena

end PrefixSearch
