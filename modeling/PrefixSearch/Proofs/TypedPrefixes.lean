import PrefixSearch.Proofs.PlainEntries
import PrefixSearch.Proofs.Text.Lowercase

/-!
# Every typed prefix reaches its entry, unless it cuts off a sigma

With room for all entries, a query lists every entry of which some text begins with it.  The query
is a beginning of an entry's name, as that was written, but both are compared in lowercase, and each
was lowercased on its own.  The lowercase of a beginning is the beginning of the lowercase, with one
exception in all of Unicode: a capital sigma that is the last letter of the query, and not of its
word, is written `ς` in the query and `σ` in the name.  While such a query is typed the entry is
lost, unless a keyword or a scope suffix happens to begin with it; with the next letter that is no
sigma it is there again.
-/

namespace PrefixSearch

namespace Index

variable {config : Config} {before after : List Entry} {entry : Entry} {id : Id} {index : Index}

namespace PlainRun

variable [Search]

/-- What is typed of a name begins the text of the name, unless case does not count and a sigma is
cut off from its word. -/
theorem typed_prefix_iff (hrun : PlainRun config before entry after id index)
    {typed rest : String} (hname : entry.name = typed ++ rest) :
    Text.utf8 (index.normalize typed) <+: Text.utf8 (index.normalize entry.name) ↔
      ¬ (config.caseInsensitive = true ∧ Text.CutsSigma typed.toList rest.toList) := by
  obtain ⟨rfl, -⟩ := hrun.registered
  rw [hname]
  exact Text.prefix_normalize_iff index.config.caseInsensitive typed rest

theorem owns_name (hrun : PlainRun config before entry after id index) :
    index.Owns id (Text.utf8 (index.normalize entry.name)) :=
  Or.inl ((hrun.ownsExactly_iff _).mpr ⟨_, List.mem_cons_self, rfl⟩)

/-- Let there be room for all entries, none of them an alias.  Then what is typed of the name of an
entry lists the ID that was given for it, unless case does not count and a sigma is cut off from its
word.  In this case the text of the name does not begin with the query, and the ID is listed only if
another of its texts does. -/
theorem lists_typed (hrun : PlainRun config before entry after id index)
    (hroom : (before ++ entry :: after).length ≤ config.maxCompletions) (typed rest : String)
    (hname : entry.name = typed ++ rest) :
    (id ∈ (index.lookup typed).ordered ↔
      ¬ (config.caseInsensitive = true ∧ Text.CutsSigma typed.toList rest.toList) ∨
        ∃ text, index.Owns id text ∧ text ≠ Text.utf8 (index.normalize entry.name) ∧
          Text.utf8 (index.normalize typed) <+: text) ∧
      (Text.utf8 (index.normalize typed) <+: Text.utf8 (index.normalize entry.name) ↔
        ¬ (config.caseInsensitive = true ∧ Text.CutsSigma typed.toList rest.toList)) := by
  have hbegins := hrun.typed_prefix_iff hname
  refine ⟨?_, hbegins⟩
  rw [hrun.mem_ordered_iff hroom, ← hbegins]
  constructor
  · rintro ⟨text, howns, hstarts⟩
    by_cases htext : text = Text.utf8 (index.normalize entry.name)
    · exact Or.inl (htext ▸ hstarts)
    · exact Or.inr ⟨text, howns, htext, hstarts⟩
  · rintro (hstarts | ⟨text, howns, -, hstarts⟩)
    · exact ⟨_, hrun.owns_name, hstarts⟩
    · exact ⟨text, howns, hstarts⟩

end PlainRun

/-- A page whose name has a sigma twice within a word and once at its end. -/
def odysseus : Entry := { name := "ΟΔΥΣΣΕΑΣ", url := "odysseus.html", kind := .page }

theorem PlainRun.lists_typed_odysseus :
    ∃ index, PlainRun {} [] odysseus [] 0 index ∧ 0 ∈ (index.lookup "ΟΔΥ").ordered ∧
      0 ∈ (index.lookup "ΟΔΥΣΣΕΑΣ").ordered := by
  have hadd : ((empty {}).add odysseus).toOption.map Prod.fst = some 0 := by decide +kernel
  obtain ⟨⟨id, index⟩, hadd, rfl⟩ := Option.map_eq_some_iff.mp hadd
  have hrun : PlainRun {} [] odysseus [] 0 index :=
    ⟨by decide, _, _, rfl, toOption_eq_some.mp hadd, rfl⟩
  obtain ⟨hfound, -⟩ := hrun.lists_typed (by decide) "ΟΔΥ" "ΣΣΕΑΣ" (by decide)
  obtain ⟨hwhole, -⟩ := hrun.lists_typed (by decide) "ΟΔΥΣΣΕΑΣ" "" (by decide)
  exact ⟨index, hrun, hfound.mpr (Or.inl (by decide +kernel)),
    hwhole.mpr (Or.inl (by decide +kernel))⟩

/-- Four letters into the name the last one is taken for the end of a word, and the page is lost. -/
theorem loses_typed_odysseus :
    ∃ index, PlainRun {} [] odysseus [] 0 index ∧
      ([odysseus] : List Entry).length ≤ index.config.maxCompletions ∧
      odysseus.name = "ΟΔΥΣ" ++ "ΣΕΑΣ" ∧ 0 ∉ (index.lookup "ΟΔΥΣ").ordered := by
  have hfacts : ((empty {}).add odysseus).toOption.map (fun added =>
      (added.1, added.2.config, (added.2.lookup "ΟΔΥΣ").ordered)) = some (0, {}, []) := by
    decide +kernel
  obtain ⟨⟨id, index⟩, hadd, hfacts⟩ := Option.map_eq_some_iff.mp hfacts
  simp only [Prod.mk.injEq] at hfacts
  obtain ⟨rfl, hconfig, hordered⟩ := hfacts
  refine ⟨index, ⟨by decide, _, _, rfl, toOption_eq_some.mp hadd, rfl⟩, ?_, by decide, ?_⟩
  · rw [hconfig]
    decide
  · rw [hordered]
    exact List.not_mem_nil

end Index

end PrefixSearch
