import PrefixSearch.Proofs.Arena.AddedText
import PrefixSearch.Proofs.Arena.AddedTree

/-!
# Building an arena

Additions of texts and of trees append only paths that the texts span, and they append the texts, so
after any sequence of additions the paths are the paths that the texts span.
-/

namespace PrefixSearch

namespace Arena

variable {a : Arena} {paths : List (List UInt8)}

/-- The arenas that additions of texts and of other such arenas make of an empty one, with the texts
that were added. -/
inductive Built [Search] : Arena → List (List UInt8) → Prop
  | new (bound : Nat) : Built { bound } []
  | insert {a : Arena} {texts : List (List UInt8)} (table : ResultTable) (term : Term)
      (ha : Built a texts) : Built (a.insert table term) (texts ++ [term.text])
  | merge {a other : Arena} {texts more : List (List UInt8)} (table : ResultTable)
      (ha : Built a texts) (hother : Built other more) :
      Built (a.merge table other) (texts ++ more)

/-- Paths that hold the texts and no path that the texts do not span are the spanned paths. -/
theorem HasPaths.mem_iff_spanned (h : a.HasPaths paths) {texts : List (List UInt8)}
    (htexts : texts ⊆ paths) (hspanned : ∀ path ∈ paths, Spanned texts path) (path : List UInt8) :
    path ∈ paths ↔ Spanned texts path := by
  refine ⟨hspanned path, ?_⟩
  rintro (rfl | htext | ⟨left, hleft, right, hright, rfl⟩)
  · exact List.mem_of_getElem? h.root_path
  · exact htexts htext
  · exact h.commonPrefix_mem (htexts hleft) (htexts hright)

theorem closed_spanned (texts : List (List UInt8)) : ClosedUnderPrefixes (Spanned texts) :=
  fun _ _ hleft hright => hleft.commonPrefix hright

/-- The paths of the nodes are the paths that the texts span. -/
theorem Built.exists_paths [Search] {texts : List (List UInt8)} (hbuilt : Built a texts) :
    ∃ paths, a.HasPaths paths ∧ ∀ path, path ∈ paths ↔ Spanned texts path := by
  induction hbuilt with
  | new bound =>
      exact ⟨[[]], HasPaths.new bound, (HasPaths.new bound).mem_iff_spanned (List.nil_subset _)
        fun path hpath => Or.inl (List.mem_singleton.mp hpath)⟩
  | @insert a texts table term _ ih =>
      obtain ⟨paths, hpaths, hiff⟩ := ih
      have hold : ∀ path ∈ paths, Spanned (texts ++ [term.text]) path := fun path hpath =>
        ((hiff path).mp hpath).mono (List.subset_append_left _ _)
      obtain ⟨added, hadded⟩ := hpaths.insert table term
      have hwithin := within_of_common hadded.common (closed_spanned (texts ++ [term.text])) hold
        (Spanned.of_mem (by simp))
      refine ⟨_, hadded.hasPaths, hadded.hasPaths.mem_iff_spanned ?_ hwithin⟩
      rw [List.append_subset]
      refine ⟨fun text htext => ?_,
        List.cons_subset.mpr ⟨hadded.text_mem, List.nil_subset _⟩⟩
      exact List.mem_append_left _ ((hiff text).mpr (Spanned.of_mem htext))
  | @merge a other texts more table _ _ ih ihOther =>
      obtain ⟨paths, hpaths, hiff⟩ := ih
      obtain ⟨otherPaths, hotherPaths, hiffOther⟩ := ihOther
      have hold : ∀ path ∈ paths, Spanned (texts ++ more) path := fun path hpath =>
        ((hiff path).mp hpath).mono (List.subset_append_left _ _)
      have hnew : ∀ path ∈ otherPaths, Spanned (texts ++ more) path := fun path hpath =>
        ((hiffOther path).mp hpath).mono (List.subset_append_right _ _)
      obtain ⟨added, hadded, hmem, hwithin⟩ := hpaths.merge table hotherPaths
        (closed_spanned (texts ++ more)) hold hnew
      refine ⟨_, hadded, hadded.mem_iff_spanned ?_ hwithin⟩
      rw [List.append_subset]
      refine ⟨fun text htext => ?_, fun text htext => ?_⟩
      · exact List.mem_append_left _ ((hiff text).mpr (Spanned.of_mem htext))
      · exact hmem ((hiffOther text).mpr (Spanned.of_mem htext))

/-- The node for "magn" is appended behind the one for "magnum", which it is put above. -/
example :
    let a := (insert {} { text := [109, 97, 103, 110, 117, 109], id := 0, exact := true }
      { bound := 100 }).insert {} { text := [109, 97, 103, 110, 101, 116], id := 1, exact := true }
    a.preorder = [0, 2, 3, 1] ∧
      a.preorder.map a.label = [[], [109, 97, 103, 110], [101, 116], [117, 109]] := by
  decide +kernel

end Arena

end PrefixSearch
