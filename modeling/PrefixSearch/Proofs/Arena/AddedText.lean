import PrefixSearch.Proofs.Arena.Descent
import PrefixSearch.Proofs.Trie.Contents

/-!
# Adding a text to an arena

Nothing is appended but the text's path and common prefixes of it with older paths.  Every prefix of
the text finds the result as a completion, and the text itself, if asked for, exactly. Nothing else
finds anything new, wherever edges were cut.
-/

namespace PrefixSearch

variable [Search]

/-- What texts find after a term was added, given what they found before. -/
def Term.addedTo (table : ResultTable) (bound : Nat) (term : Term) (found : List UInt8 → Hits)
    (text : List UInt8) : Hits :=
  if text = term.text then (found text).finish table bound term.id term.exact
  else if text <+: term.text then (found text).complete table bound term.id
  else found text

namespace Arena

variable {a : Arena} {paths : List (List UInt8)} (table : ResultTable) (term : Term)

/-- What the addition of a text does: the paths that were appended, and what all nodes find. -/
structure Inserts (table : ResultTable) (term : Term) (a : Arena) (paths : List (List UInt8))
    (added : List (List UInt8)) : Prop where
  hasPaths : (a.insert table term).HasPaths (paths ++ added)
  bound_eq : (a.insert table term).bound = a.bound
  text_mem : term.text ∈ paths ++ added
  common : ∀ new ∈ added, new = term.text ∨ ∃ old ∈ paths, new = commonPrefix term.text old
  finds : (a.insert table term).Finds (paths ++ added) (term.addedTo table a.bound a.lookup)

/-- Finishing the end of the way, passing what is strictly between it and the root, and completing the
root come to what a term adds. -/
theorem addedTo_eq (htext : term.text ≠ []) (bound : Nat) (found : List UInt8 → Hits)
    (text : List UInt8) :
    changedAt (Hits.finish table bound term.id term.exact) term.text
        (passed (Hits.complete table bound term.id) [] term.text
          (changedAt (Hits.complete table bound term.id) [] found)) text =
      term.addedTo table bound found text := by
  rw [Term.addedTo]
  by_cases hend : text = term.text
  · subst hend
    rw [if_pos rfl, changedAt_self, passed_of_not_between (fun h => h.2.2 rfl),
      changedAt_of_ne htext]
  · rw [if_neg hend, changedAt_of_ne hend]
    by_cases hway : text <+: term.text
    · rw [if_pos hway]
      by_cases hnil : text = []
      · rw [passed_of_not_between (fun h => h.1.2 hnil), hnil, changedAt_self]
      · rw [passed, if_pos ⟨⟨List.nil_prefix, hnil⟩, hway, hend⟩, changedAt_of_ne hnil]
    · have hnil : text ≠ [] := by
        rintro rfl
        exact hway List.nil_prefix
      rw [if_neg hway, passed_of_not_between (fun h => hway h.2.1), changedAt_of_ne hnil]

/-- The empty text is added to the root. -/
theorem HasPaths.insert_nil (h : a.HasPaths paths) (htext : term.text = []) :
    Inserts table term a paths [] := by
  have hroot := h.finds_lookup.change h h.root_path
    (Hits.finish table a.bound term.id term.exact)
  refine ⟨?_, ?_, ?_, by simp, fun id text hid => ?_⟩
  · rw [List.append_nil, Arena.insert, if_pos htext]
    exact h.change _ _
  · rw [Arena.insert, if_pos htext]
    rfl
  · rw [htext, List.append_nil]
    exact List.mem_of_getElem? h.root_path
  · rw [List.append_nil] at hid
    rw [Arena.insert, if_pos htext, hroot id text hid, Term.addedTo, htext]
    by_cases hnil : text = []
    · rw [if_pos hnil, hnil, changedAt_self]
    · rw [if_neg hnil, changedAt_of_ne hnil, if_neg (fun hway => hnil (List.prefix_nil.mp hway))]

theorem HasPaths.insert (h : a.HasPaths paths) : ∃ added, Inserts table term a paths added := by
  by_cases htext : term.text = []
  · exact ⟨[], h.insert_nil table term htext⟩
  · have hroot := h.finds_lookup.change h h.root_path (Hits.complete table a.bound term.id)
    obtain ⟨added, hdown⟩ := (h.change (Hits.complete table a.bound term.id) root).descend
      (Hits.complete table a.bound term.id) h.root_path term.text
    rw [List.nil_append] at hdown
    -- nothing is appended at the root, so what is new finds what the arena found there
    have hfollows : ∀ new ∈ added, FollowsAt (· ∈ paths)
        (changedAt (Hits.complete table a.bound term.id) [] a.lookup) new := by
      intro new hnew
      refine (h.followsNodes_lookup new).congr (fun _ _ => Iff.rfl) fun lower hlower =>
        changedAt_of_ne ?_
      rintro rfl
      exact hdown.hasPaths.ne_of_mem_added (List.mem_of_getElem? h.root_path) hnew
        (List.prefix_nil.mp hlower)
    have hlast := (hdown.finds hroot hfollows).change hdown.hasPaths hdown.arrived
      (Hits.finish table a.bound term.id term.exact)
    refine ⟨added, ?_, ?_, List.mem_of_getElem? hdown.arrived, hdown.common,
      fun id text hid => ?_⟩
    · rw [Arena.insert, if_neg htext]
      exact hdown.hasPaths.change _ _
    · rw [Arena.insert, if_neg htext]
      exact hdown.bound_eq
    · rw [Arena.insert, if_neg htext]
      exact (hlast id text hid).trans (addedTo_eq table term htext a.bound a.lookup text)

/-- What a text finds after another one was added. -/
theorem HasPaths.lookup_insert (h : a.HasPaths paths) (text : List UInt8) :
    (a.insert table term).lookup text = term.addedTo table a.bound a.lookup text := by
  obtain ⟨added, hadded⟩ := h.insert table term
  have hfollows : FollowsNodes (· ∈ paths ++ added) a.lookup :=
    h.followsNodes_lookup.mono h.closed fun node hnode => List.mem_append_left added hnode
  refine hadded.hasPaths.lookup_eq hadded.finds
    (hfollows.offered (fun _ => rfl) (fun hits => ?_) hadded.text_mem) text
  exact Hits.finish_completions table a.bound term.id term.exact hits

end Arena

end PrefixSearch
