import PrefixSearch.Proofs.DecodedResults

/-!
# Merged results never come back

A duplicate leaves every set of the tree when it is merged.  From then on each way into the tree leads
past it: a text is added for what its entry was merged into, and the entry that takes the place of a
duplicate is no alias.  So the sets hold results that were not merged, which every operation keeps, and
what was merged stays merged.
-/

namespace PrefixSearch

/-! ## Sets whose results have a property -/

namespace Hits

/-- Every result of both sets has the property. -/
def Each (P : Id → Prop) (hits : Hits) : Prop :=
  (∀ id ∈ hits.exact, P id) ∧ ∀ id ∈ hits.completions, P id

/-- No set has the result. -/
def Lacks (id : Id) (hits : Hits) : Prop :=
  id ∉ hits.exact ∧ id ∉ hits.completions

namespace Each

variable {P Q : Id → Prop} {table : ResultTable} {bound : Nat} {hits : Hits} {id : Id}

theorem nil (P : Id → Prop) : Each P {} :=
  ⟨fun _ hid => absurd hid List.not_mem_nil, fun _ hid => absurd hid List.not_mem_nil⟩

theorem cut (hhits : Each P hits) : Each P { completions := hits.completions } :=
  ⟨fun _ hid => absurd hid List.not_mem_nil, hhits.2⟩

theorem imp (hhits : Each P hits) (himp : ∀ id, P id → Q id) : Each Q hits :=
  ⟨fun id hid => himp id (hhits.1 id hid), fun id hid => himp id (hhits.2 id hid)⟩

theorem lacks (hhits : Each P hits) (hid : ¬ P id) : hits.Lacks id :=
  ⟨fun hmem => hid (hhits.1 id hmem), fun hmem => hid (hhits.2 id hmem)⟩

theorem sort (hhits : Each P hits) : Each P (hits.sort table) :=
  ⟨fun id hid => hhits.1 id ((Ranked.sort_perm table hits.exact).mem_iff.mp hid),
    fun id hid => hhits.2 id ((Ranked.sort_perm table hits.completions).mem_iff.mp hid)⟩

variable [Search]

theorem insert {count : Option Nat} {set : List Id} (hset : ∀ other ∈ set, P other) (hid : P id) :
    ∀ other ∈ Ranked.insert table count id set, P other := by
  intro other hother
  rcases Ranked.mem_of_mem_insert hother with rfl | hold
  · exact hid
  · exact hset other hold

theorem complete (hhits : Each P hits) (hid : P id) : Each P (hits.complete table bound id) :=
  ⟨hhits.1, insert hhits.2 hid⟩

theorem finish (exact : Bool) (hhits : Each P hits) (hid : P id) :
    Each P (hits.finish table bound id exact) := by
  unfold Hits.finish
  split
  · exact ⟨insert hhits.1 hid, insert hhits.2 hid⟩
  · exact hhits.complete hid

/-- The result that is replaced need not have the property afterwards. -/
theorem replace {old new size : Nat} (hhits : Each P hits) (hwithin : hits.Within size)
    (hnew : Q new) (himp : ∀ id, id ≠ old → P id → Q id) :
    Each Q (hits.replace table bound old new) := by
  have hset : ∀ (count : Option Nat) (set : List Id), set.Nodup → (∀ id ∈ set, P id) →
      ∀ id ∈ Ranked.replace table count old new set, Q id := by
    intro count set hnodup hset
    unfold Ranked.replace
    split
    · refine insert (fun id hid => ?_) hnew
      obtain ⟨hne, hmem⟩ := hnodup.mem_erase_iff.mp hid
      exact himp id hne (hset id hmem)
    · next hcontains =>
      intro id hid
      refine himp id ?_ (hset id hid)
      rintro rfl
      exact hcontains (List.contains_iff_mem.mpr hid)
  exact ⟨hset none hits.exact hwithin.1.1 hhits.1,
    hset (some bound) hits.completions hwithin.2.1 hhits.2⟩

theorem kept (table : ResultTable) (bound : Nat) (term : Term) (hterm : P term.id) :
    Forest.Kept (Each P) (Hits.complete table bound term.id)
      (Trie.finishTerm table bound term) where
  empty := nil P
  cut _ hhits := hhits.cut
  through _ hhits := hhits.complete hterm
  finish _ _ hhits hbelow := ⟨hhits.finish term.exact hterm, hbelow⟩

end Each

end Hits

namespace Index

variable {config : Config} {index next last : Index} {op : Operation} {kept gone : Id}

/-- The entry that an operation merges into another one: the second ID of a merge, or the new entry
if it is added as a duplicate. -/
def Operation.merges? (index : Index) : Operation → Option Id
  | .add entry => (index.duplicateOf? entry).map fun _ => index.table.size
  | .mergeDuplicate _ gone => some gone
  | .pushEntry _ => none
  | .addAlias _ _ => none
  | .insert _ _ _ => none

/-! ## What every operation keeps -/

/-- The index is sound, and its sets hold results that were not merged. -/
structure Clean (index : Index) : Prop where
  sound : index.Sound
  nodes : index.trie.All (Hits.Each index.table.IsKept)

namespace Clean

theorem empty (config : Config) : (Index.empty config).Clean :=
  ⟨Sound.empty config, Hits.Each.nil _, trivial⟩

theorem sorted (hindex : index.Clean) : index.sorted.Clean :=
  ⟨hindex.sound.sorted, hindex.nodes.mapHits fun _ hhits => hhits.sort⟩

/-- What was merged is in no set of a node, and so no text finds it. -/
theorem lacks (hindex : index.Clean) (hgone : index.table.isMerged gone = true) :
    (∀ v ∈ index.trie.visits, v.hits.Lacks gone) ∧
      ∀ query, (index.lookup query).Lacks gone := by
  have hnot : ¬ index.table.IsKept gone := fun hkept => by
    rw [hkept.2] at hgone
    cases hgone
  refine ⟨fun v hv => (Trie.all_iff_visits.mp hindex.nodes v hv).lacks hnot, fun query => ?_⟩
  exact (hindex.nodes.lookup (Hits.Each.nil _) (fun _ hhits => hhits.cut) _).lacks hnot

variable [Search]

theorem grows (hindex : index.Clean) (hgrows : Grows index next) : next.Clean := by
  refine ⟨hgrows.sound hindex.sound, ?_⟩
  cases hgrows with
  | row hrows _ =>
      refine hindex.nodes.imp fun hits hhits => hhits.imp fun id hid => ?_
      exact (ResultTable.isKept_iff hrows id).mpr (Or.inl hid)
  | text hkept =>
      exact hindex.nodes.insert (Hits.Each.kept index.table index.trie.bound _ hkept)

theorem merged (hindex : index.Clean) (hmay : index.table.Mergeable kept gone) :
    (index.merged kept gone).Clean := by
  refine ⟨hindex.sound.merged hmay, ?_⟩
  -- a set has the duplicate at most once, so that it is gone when one occurrence is
  have hboth := hindex.sound.trie.all.and hindex.nodes
  refine hboth.mapHits fun hits hhits => ?_
  refine hhits.2.replace hhits.1 (hindex.sound.forest.isKept_of_mergeable hmay) ?_
  intro id hne hid
  exact (ResultTable.isKept_merge hmay.gone_lt).mpr ⟨hne, hid⟩

theorem apply (hindex : index.Clean) (happly : index.apply op = .ok next) : next.Clean :=
  hindex.sound.apply_keeps happly (fun _ _ _ hmid hstep => hmid.grows hstep)
    (fun _ _ hmay => hindex.merged hmay) hindex

end Clean

section

variable [Search]

/-- What was merged stays merged. -/
theorem Sound.isMerged_apply (hindex : index.Sound) (happly : index.apply op = .ok next)
    (hgone : index.table.isMerged gone = true) : next.table.isMerged gone = true := by
  refine hindex.apply_keeps (P := fun index => index.table.isMerged gone = true) happly ?_ ?_ hgone
  · intro index next _ hmerged hstep
    cases hstep with
    | row hrows _ =>
        have hid := ResultTable.lt_size_of_isMerged hmerged
        rwa [ResultTable.isMerged, hrows, ResultTable.rows_append_of_lt _ hid]
    | text _ => exact hmerged
  · intro kept other hmay
    exact (ResultTable.isMerged_merge hmay.gone_lt).mpr (Or.inr hgone)

/-- An operation that merges an entry leaves it merged. -/
theorem isMerged_of_merges? (hmerges : op.merges? index = some gone)
    (happly : index.apply op = .ok next) : next.table.isMerged gone = true := by
  cases op with
  | pushEntry entry => cases hmerges
  | addAlias name target => cases hmerges
  | insert text id exact => cases hmerges
  | mergeDuplicate kept other =>
      cases hmerges
      obtain ⟨hmay, rfl⟩ := mergeDuplicate_eq_ok (mapError_eq_ok.mp happly)
      exact (ResultTable.isMerged_merge hmay.gone_lt).mpr (Or.inl rfl)
  | add entry =>
      obtain ⟨kept, hdup, rfl⟩ := Option.map_eq_some_iff.mp hmerges
      obtain ⟨id, hadd⟩ := second_eq_ok.mp happly
      obtain ⟨⟨new, terms, mid⟩, hregister, hadded⟩ := except_bind_eq_ok.mp hadd
      cases hadded
      have houtcome := register_outcome hregister
      cases houtcome with
      | fresh _ _ hfresh =>
          rw [hfresh] at hdup
          cases hdup
      | duplicate _ hkept hkind =>
          have hgone : index.table.size < (index.table.append { entry }).size := by
            rw [ResultTable.size_append]
            exact Nat.lt_succ_self _
          exact (ResultTable.isMerged_merge hgone).mpr (Or.inl rfl)

/-! ## Histories -/

/-- An entry that an operation merged into another one is found by no text from then on, neither in
the index nor in its file. -/
theorem Run.lacks_merged (hbefore : Run Any (empty config) index)
    (hmerges : op.merges? index = some gone) (happly : index.apply op = .ok next)
    (hafter : Run Any next last) :
    last.table.isMerged gone = true ∧
      (∀ v ∈ last.trie.visits, v.hits.Lacks gone) ∧
      (∀ query, (last.lookup query).Lacks gone) ∧
      ∀ frozen, last.finalize = .ok frozen →
        (∀ v ∈ frozen.trie.visits, v.hits.Lacks gone) ∧
        (∀ query, (frozen.toIndex.lookup query).Lacks gone) ∧
        ∃ d, SearchData.parse frozen.encode.toArray = .ok d ∧ ∀ query, ∃ hits results,
          d.lookup query = .ok hits ∧ hits.Lacks gone ∧
          d.query query = .ok results ∧ gone ∉ results.map (·.id) := by
  -- clean from the start on, and merged from this operation on
  have hclean : index.Clean :=
    hbefore.keeps (fun _ _ _ hindex _ hstep => hindex.apply hstep) (Clean.empty config)
  have hnext : next.Clean ∧ next.table.isMerged gone = true :=
    ⟨hclean.apply happly, isMerged_of_merges? hmerges happly⟩
  obtain ⟨hlast, hgone⟩ : last.Clean ∧ last.table.isMerged gone = true := by
    refine hafter.keeps (P := fun index => index.Clean ∧ index.table.isMerged gone = true)
      (fun index op next hindex _ hstep => ?_) hnext
    exact ⟨hindex.1.apply hstep, hindex.1.sound.isMerged_apply hstep hindex.2⟩
  obtain ⟨hnodes, hlookups⟩ := hlast.lacks hgone
  refine ⟨hgone, hnodes, hlookups, fun frozen hfinal => ?_⟩
  have hsorted : frozen.toIndex = last.sorted := (finalize_eq_ok hfinal).1
  obtain ⟨hfrozenNodes, hfrozenLookups⟩ := hlast.sorted.lacks hgone
  rw [← hsorted] at hfrozenNodes hfrozenLookups
  have hfits : frozen.Fits := hlast.sound.fits hfinal
  refine ⟨hfrozenNodes, hfrozenLookups, frozen.reopened, hfits.parse_eq, fun query => ?_⟩
  refine ⟨_, _, hfits.lookup_eq query, hfrozenLookups query, hlast.sound.query_eq hfinal query, ?_⟩
  rw [ids_of_results]
  intro hid
  have hnodup : (frozen.toIndex.lookup query).completions.Nodup := by
    rw [hsorted]
    exact (hlast.sound.sorted.lookup query).2.1
  obtain ⟨hexact, hcompletions⟩ := hfrozenLookups query
  rcases (Hits.mem_ordered hnodup).mp hid with hmem | hmem
  · exact hexact hmem
  · exact hcompletions hmem

end

/-- Three pages. -/
def threePages : List Operation := [
  .add { name := "A", url := "a.html", kind := .page },
  .add { name := "B", url := "b.html", kind := .page },
  .add { name := "C", url := "c.html", kind := .page }]

/-- What may bring back the page "B" after it was merged into "A": its texts, its name with its URL,
and a merge of the page that it was merged into. -/
def bringBack : List Operation := [
  .insert "b" 1 true,
  .mergeDuplicate 2 0,
  .insert "beta" 1 false,
  .add { name := "B", url := "b.html", kind := .page }]

theorem Run.lacks_merged_bringBack :
    ∃ index next last frozen d results, (Index.empty {}).applyAll threePages = .ok index ∧
      index.apply (.mergeDuplicate 0 1) = .ok next ∧ next.applyAll bringBack = .ok last ∧
      last.finalize = .ok frozen ∧ SearchData.parse frozen.encode.toArray = .ok d ∧
      (last.lookup "b").exact = [2] ∧ (last.lookup "b").Lacks 1 ∧
      d.query "b" = .ok results ∧ 1 ∉ results.map (·.id) := by
  have hfacts : (((Index.empty {}).applyAll threePages).toOption.bind fun index =>
      (index.apply (.mergeDuplicate 0 1)).toOption.bind fun next =>
        (next.applyAll bringBack).toOption.bind fun last =>
          last.finalize.toOption.map fun _ => (last.lookup "b").exact) = some [2] := by
    decide +kernel
  obtain ⟨index, hindex, hfacts⟩ := Option.bind_eq_some_iff.mp hfacts
  obtain ⟨next, hnext, hfacts⟩ := Option.bind_eq_some_iff.mp hfacts
  obtain ⟨last, hlast, hfacts⟩ := Option.bind_eq_some_iff.mp hfacts
  obtain ⟨frozen, hfrozen, hexact⟩ := Option.map_eq_some_iff.mp hfacts
  rw [toOption_eq_some] at hindex hnext hlast hfrozen
  have hbefore : Run Any (Index.empty {}) index := .of_applyAll hindex fun _ _ _ => trivial
  have hafter : Run Any next last := .of_applyAll hlast fun _ _ _ => trivial
  obtain ⟨-, -, hlookup, hfile⟩ := hbefore.lacks_merged rfl hnext hafter
  obtain ⟨-, -, d, hparse, hquery⟩ := hfile frozen hfrozen
  obtain ⟨hits, results, -, -, hresults, hnot⟩ := hquery "b"
  exact ⟨index, next, last, frozen, d, results, hindex, hnext, hlast, hfrozen, hparse, hexact,
    hlookup "b", hresults, hnot⟩

end Index

end PrefixSearch
