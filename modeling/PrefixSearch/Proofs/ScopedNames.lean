import PrefixSearch.Proofs.PlainEntries
import PrefixSearch.Proofs.Text.Scope

/-!
# Which scope suffixes find their entry

A qualified name is found exactly by what stands behind its separators.  These suffixes are indexed
in lowercase, and they are the suffixes of the lowercase name, not the lowercase of the suffixes of
the name.  Where case counts both are the same.  Where it does not, a suffix that is typed as it was
written finds its entry, unless it begins with a single sigma that ends a word together with the
scope before it, or the lowercase name has no separator where the name has one.

A separator of characters without case is always kept, so with such a one only the sigma is left.
The default separator `::` is of this kind, but its colons do not end a word: in `Math::Σ` the
sigma follows the `h`, and it is indexed as `ς`.
-/

namespace PrefixSearch

namespace Index

variable {config : Config} {before after : List Entry} {entry : Entry} {id : Id} {index : Index}

namespace PlainRun

variable [Search]

/-- A suffix of a name finds the entry exactly if it is looked up as one of the indexed suffixes. -/
theorem mem_exact_suffix_iff (hrun : PlainRun config before entry after id index)
    (hscopes : config.indexScopeSuffixes = true) {front suffix : String} (hfront : front ≠ "")
    (hname : entry.name = front ++ suffix) :
    id ∈ (index.lookup suffix).exact ↔
      Text.normalize config.caseInsensitive suffix ∈ Text.scopeSuffixes config.scopeSeparator
        (Text.normalize config.caseInsensitive (front ++ suffix)) := by
  obtain ⟨rfl, -⟩ := hrun.registered
  have hne : index.normalize suffix ≠ index.normalize entry.name := by
    rw [hname]
    exact (Text.normalize_append_ne index.config.caseInsensitive hfront suffix).symm
  rw [hrun.mem_exact_iff, hrun.ownsExactly_iff, exactTexts, if_pos hscopes, ← hname]
  constructor
  · rintro ⟨text, htext, hsame⟩
    rw [Text.utf8_inj] at hsame
    subst hsame
    exact (List.mem_cons.mp htext).resolve_left hne
  · intro hmem
    exact ⟨_, List.mem_cons_of_mem _ hmem, rfl⟩

/-- Let scope suffixes be indexed and no entry be an alias.  Then a scope suffix of the name of an
entry finds the ID that was given for it, unless case does not count and the suffix has a sigma that
ends a word only together with its scope, or the lowercase name is not cut before it.  With a
separator of characters without case only the sigma counts. -/
theorem finds_suffix (hrun : PlainRun config before entry after id index)
    (hscopes : config.indexScopeSuffixes = true) (suffix : String)
    (hsuffix : suffix ∈ Text.scopeSuffixes config.scopeSeparator entry.name) :
    ∃ front, entry.name = front ++ suffix ∧
      (id ∈ (index.lookup suffix).exact ↔
        (config.caseInsensitive = true →
          ¬ Text.StrandsSigma front.toList suffix.toList ∧
            Text.KeepsCut config.scopeSeparator front suffix)) ∧
      ((∀ c ∈ config.scopeSeparator.toList, Text.CaseFree c) →
        (id ∈ (index.lookup suffix).exact ↔
          ¬ (config.caseInsensitive = true ∧
            Text.StrandsSigma front.toList suffix.toList))) := by
  obtain ⟨front, hfront, hname⟩ :=
    Text.exists_front_of_mem_afterEach (Text.mem_scopeSuffixes.mp hsuffix).2
  have hwhole : entry.name = String.ofList front ++ suffix := by
    rw [← String.toList_inj, String.toList_append, String.toList_ofList]
    exact hname
  have hne : String.ofList front ≠ "" := by
    rw [Ne, ← String.toList_eq_nil_iff, String.toList_ofList]
    exact hfront
  rw [hwhole] at hsuffix
  have hexact : id ∈ (index.lookup suffix).exact ↔ _ :=
    (hrun.mem_exact_suffix_iff hscopes hne hwhole).trans
      (Text.normalize_mem_scopeSuffixes_iff config.caseInsensitive hsuffix)
  refine ⟨String.ofList front, hwhole, hexact, fun hseparator => ?_⟩
  have hcut := Text.keepsCut_of_caseFree hseparator hsuffix
  rw [hexact, not_and]
  exact forall_congr' fun _ => and_iff_left hcut

end PlainRun

/-- A function in two scopes. -/
def vectorMin : Entry := { name := "math::vector::min", url := "min.html", kind := .function }

theorem PlainRun.finds_suffix_vectorMin :
    ∃ index, PlainRun {} [] vectorMin [] 0 index ∧ 0 ∈ (index.lookup "min").exact := by
  have hadd : ((empty {}).add vectorMin).toOption.map Prod.fst = some 0 := by decide +kernel
  obtain ⟨⟨id, index⟩, hadd, rfl⟩ := Option.map_eq_some_iff.mp hadd
  have hrun : PlainRun {} [] vectorMin [] 0 index :=
    ⟨by decide, _, _, rfl, toOption_eq_some.mp hadd, rfl⟩
  obtain ⟨front, -, -, hfound⟩ := hrun.finds_suffix rfl "min" (by decide +kernel)
  have hseparator : ∀ c ∈ "::".toList, Text.CaseFree c := by
    intro c hc
    obtain rfl : c = ':' := by simpa using hc
    exact Text.caseFree_of_ascii (by decide) (by decide)
  refine ⟨index, hrun, (hfound hseparator).mpr fun hlost => ?_⟩
  exact absurd hlost.2.mem (by decide)

/-- A function that is called by the sign for a sum. -/
def mathSum : Entry := { name := "Math::Σ", url := "sum.html", kind := .function }

/-- The sigma ends a word with the letters before the separator, and it is indexed as such. -/
theorem loses_suffix_mathSum :
    ∃ index, PlainRun {} [] mathSum [] 0 index ∧ index.config.indexScopeSuffixes = true ∧
      "Σ" ∈ Text.scopeSuffixes index.config.scopeSeparator mathSum.name ∧
      0 ∉ (index.lookup "Σ").exact := by
  have hfacts : ((empty {}).add mathSum).toOption.map (fun added =>
      (added.1, added.2.config, (added.2.lookup "Σ").exact)) = some (0, {}, []) := by
    decide +kernel
  obtain ⟨⟨id, index⟩, hadd, hfacts⟩ := Option.map_eq_some_iff.mp hfacts
  simp only [Prod.mk.injEq] at hfacts
  obtain ⟨rfl, hconfig, hexact⟩ := hfacts
  refine ⟨index, ⟨by decide, _, _, rfl, toOption_eq_some.mp hadd, rfl⟩, ?_, ?_, ?_⟩
  · rw [hconfig]
  · rw [hconfig]
    decide +kernel
  · rw [hexact]
    exact List.not_mem_nil

end Index

end PrefixSearch
