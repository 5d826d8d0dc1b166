import PrefixSearch.Proofs.Coverage
import PrefixSearch.Proofs.Searches

/-!
# What a merge does to the tree

A merge changes no node but for its sets, and no set but those that have the duplicate.  In such a set
the duplicate makes room first, so that the bound cannot push anything out, and then the kept entry is
added as any other result.  The set loses at most one more member, which the kept entry stands for.

A set may be out of rank order after earlier merges, and then the search for the spot of the kept entry
may end anywhere.  So all of this is said of any search.
-/

namespace PrefixSearch

namespace Ranked

variable [Search] {t : ResultTable} {bound : Option Nat} {set : List Id} {id old new : Id}

/-! ## Insertions -/

theorem mem_best_put (hroom : ∀ count, bound = some count → set.length < count) (other : Id) :
    other ∈ best bound (put t id set) ↔ other = id ∨ other ∈ set := by
  have hfits : Fits bound (put t id set) := by
    intro count hcount
    rw [length_put]
    exact hroom count hcount
  rw [best_of_fits hfits, mem_put]

/-- What an insertion into a set with room for one more result may do: the set receives the result
or has a lower one that looks like it, and loses at most one result, a higher one that looks like it. -/
theorem insert_effect (t : ResultTable) (id : Id)
    (hroom : ∀ count, bound = some count → set.length < count) :
    (∀ x ∈ insert t bound id set, x = id ∨ x ∈ set) ∧
      (∃ x ∈ insert t bound id set, x = id ∨ (x < id ∧ t.sameTarget x id = true)) ∧
      ∃ dropped, ∀ x ∈ set, x ∈ insert t bound id set ∨
        (x = dropped ∧ id < x ∧ t.sameTarget x id = true) := by
  have houtcome := insert_outcome t bound id set
  generalize insert t bound id set = result at houtcome
  cases houtcome with
  | present hmem =>
      exact ⟨fun x hx => Or.inr hx, ⟨id, hmem, Or.inl rfl⟩, id, fun x hx => Or.inl hx⟩
  | shadowed other hother hlook hlt =>
      have hsame : t.sameTarget other id = true := ResultTable.sameTarget_iff.mpr hlook
      exact ⟨fun x hx => Or.inr hx, ⟨other, hother, Or.inr ⟨hlt, hsame⟩⟩, id,
        fun x hx => Or.inl hx⟩
  | placed =>
      simp only [mem_best_put hroom]
      exact ⟨fun x hx => hx, ⟨id, Or.inl rfl, Or.inl rfl⟩, id, fun x hx => Or.inl (Or.inr hx)⟩
  | replaced other hother hlook hlt =>
      -- of the two that look alike, only the lower one is in the set afterwards
      have hsame : t.sameTarget other id = true := ResultTable.sameTarget_iff.mpr hlook
      have hshorter : ∀ count, bound = some count → (set.erase other).length < count :=
        fun count hcount =>
          Nat.lt_of_le_of_lt List.erase_sublist.length_le (hroom count hcount)
      simp only [mem_best_put hshorter]
      refine ⟨fun x hx => hx.imp_right List.mem_of_mem_erase, ⟨id, Or.inl rfl, Or.inl rfl⟩,
        other, fun x hx => ?_⟩
      by_cases hdropped : x = other
      · exact Or.inr ⟨hdropped, hdropped ▸ hlt, hdropped ▸ hsame⟩
      · exact Or.inl (Or.inr ((List.mem_erase_of_ne hdropped).mpr hx))

/-! ## Replacements -/

/-- The effect of putting `new` into the place of `old` in a set, and the frame around it. -/
structure Replaced (t : ResultTable) (old new : Id) (before after : List Id) : Prop where
  /-- A set without the old result stays as it is. -/
  unchanged : old ∉ before → after = before
  lacks : old ∉ after
  subset : ∀ id ∈ after, id = new ∨ (id ∈ before ∧ id ≠ old)
  /-- A set that had the old result has the new one or a lower one that looks like it. -/
  stands : old ∈ before → ∃ id ∈ after, id = new ∨ (id < new ∧ t.sameTarget id new = true)
  /-- No more than one other member is lost, a higher one that looks like the new one. -/
  keeps : ∃ dropped, ∀ id ∈ before, id ≠ old →
    id ∈ after ∨ (id = dropped ∧ new < id ∧ t.sameTarget id new = true)

theorem replaced_replace (hne : new ≠ old) (hnodup : set.Nodup) (hfits : Fits bound set) :
    Replaced t old new set (replace t bound old new set) := by
  by_cases hold : old ∈ set
  · have hafter : replace t bound old new set = insert t bound new (set.erase old) :=
      if_pos (List.contains_iff_mem.mpr hold)
    -- the removal is what makes room for the new result, even in a full set
    obtain ⟨hsubset, hstands, dropped, hkeeps⟩ :=
      insert_effect t new (length_erase_lt hfits hold)
    simp only [hnodup.mem_erase_iff] at hsubset hkeeps
    rw [hafter]
    exact
      { unchanged := fun hnot => absurd hold hnot
        lacks := fun hmem => (hsubset old hmem).elim hne.symm fun hother => hother.1 rfl
        subset := fun id hid => (hsubset id hid).imp_right And.symm
        stands := fun _ => hstands
        keeps := ⟨dropped, fun id hid hother => hkeeps id ⟨hother, hid⟩⟩ }
  · have hafter : replace t bound old new set = set :=
      if_neg fun hcontains => hold (List.contains_iff_mem.mp hcontains)
    rw [hafter]
    exact
      { unchanged := fun _ => rfl
        lacks := hold
        subset := fun id hid => Or.inr ⟨hid, fun heq => hold (heq ▸ hid)⟩
        stands := fun hmem => absurd hmem hold
        keeps := ⟨new, fun id hid _ => Or.inl hid⟩ }

end Ranked

namespace Index

variable {config : Config} {index next : Index} {kept gone : Id}

/-- Wherever the searches in its sets ended and end, a merge keeps the nodes of an index, their labels
and their children, and changes the sets only as a replacement of the duplicate by the kept entry does. -/
theorem Reachable.mergeDuplicate_effect [Search] (hreach : Reachable config index)
    (hmerge : index.mergeDuplicate kept gone = .ok next) :
    next.trie.size = index.trie.size ∧
      next.trie.mapHits (fun _ => {}) = index.trie.mapHits (fun _ => {}) ∧
      List.Forall₂ (fun before after : Visit =>
          after.depth = before.depth ∧ after.label = before.label ∧
            after.children = before.children ∧
            Ranked.Replaced next.table gone kept before.hits.exact after.hits.exact ∧
            Ranked.Replaced next.table gone kept before.hits.completions after.hits.completions)
        index.trie.visits next.trie.visits := by
  obtain ⟨hmay, rfl⟩ := mergeDuplicate_eq_ok hmerge
  have hindex : index.Bounded := hreach.bounded
  refine ⟨Trie.size_mapHits _ index.trie, Trie.mapHits_mapHits _ _ index.trie, ?_⟩
  have hvisits : (index.trie.replace (index.table.merge kept gone) gone kept).visits =
      index.trie.visits.map fun v => { v with
        hits := v.hits.replace (index.table.merge kept gone) index.trie.bound gone kept } :=
    Trie.visits_mapHits _ index.trie
  rw [merged, hvisits, List.forall₂_map_right_iff, List.forall₂_same]
  intro v hv
  obtain ⟨hexact, hcompletions⟩ := Trie.all_iff_visits.mp hindex.sound.trie.all v hv
  refine ⟨rfl, rfl, rfl, Ranked.replaced_replace hmay.ne hexact.1 (Ranked.fits_none _), ?_⟩
  refine Ranked.replaced_replace hmay.ne hcompletions.1 ?_
  rintro count ⟨rfl⟩
  exact Trie.all_iff_visits.mp hindex.nodes v hv

/-- A merge in a set that is full and out of rank order. -/
theorem Reachable.mergeDuplicate_effect_swappedAliases :
    let config : Config := { maxCompletions := 3 }
    ∃ index next, (Index.empty config).applyAll swappedAliases = .ok index ∧
      (index.lookup "x").completions = [4, 2, 3] ∧ ¬ index.table.RanksBefore 4 2 ∧
      index.mergeDuplicate 1 3 = .ok next ∧ (next.lookup "x").completions = [1, 4, 2] ∧
      next.trie.size = index.trie.size := by
  intro config
  have hfacts : (((Index.empty config).applyAll swappedAliases).toOption.bind fun index =>
      (index.mergeDuplicate 1 3).toOption.map fun next =>
        ((index.lookup "x").completions, decide (index.table.rankKey 4 < index.table.rankKey 2),
          (next.lookup "x").completions)) = some ([4, 2, 3], false, [1, 4, 2]) := by
    decide +kernel
  obtain ⟨index, hindex, hfacts⟩ := Option.bind_eq_some_iff.mp hfacts
  obtain ⟨next, hnext, hfacts⟩ := Option.map_eq_some_iff.mp hfacts
  rw [toOption_eq_some] at hindex hnext
  simp only [Prod.mk.injEq, decide_eq_false_iff_not] at hfacts
  obtain ⟨hbefore, hranks, hafter⟩ := hfacts
  have hrun : Run Any (Index.empty config) index := .of_applyAll hindex fun _ _ _ => trivial
  obtain ⟨hsize, -, -⟩ := Reachable.mergeDuplicate_effect hrun.reachable hnext
  exact ⟨index, next, hindex, hbefore, hranks, hnext, hafter, hsize⟩

end Index

end PrefixSearch
