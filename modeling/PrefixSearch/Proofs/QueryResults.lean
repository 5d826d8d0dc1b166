import PrefixSearch.Proofs.DistinctResults
import PrefixSearch.Proofs.Retrieval
import PrefixSearch.Proofs.StoredRecords

/-!
# What a query lists

A query lists the exact results and then the completions that are not among them.  Both sets hold
one result of each look, so a look is listed twice exactly if the sets hold different results of it.
The exact set holds the lowest ID, because nothing is ever pushed out of it.  The completions may
have forgotten that ID and taken in a higher one, unless no results stand in each other's way.
-/

namespace PrefixSearch

/-! ## Exact results and completions in one list -/

namespace Hits

/-- Completions without repetitions are listed unless they are exact results. -/
theorem ordered_eq {hits : Hits} (hnodup : hits.completions.Nodup) :
    hits.ordered = hits.exact ++ hits.completions.filter (· ∉ hits.exact) := by
  have honto : ∀ (completions ids : List Id), completions.Nodup →
      completions.foldl (fun ids id => if ids.contains id then ids else ids ++ [id]) ids =
        ids ++ completions.filter (· ∉ ids) := by
    intro completions
    induction completions with
    | nil => simp
    | cons id completions ih =>
        intro ids hnodup
        obtain ⟨hnew, hrest⟩ := List.nodup_cons.mp hnodup
        rw [List.foldl_cons]
        by_cases hmem : id ∈ ids
        · rw [if_pos (List.contains_iff_mem.mpr hmem), ih ids hrest]
          simp [hmem]
        · have hfilter : completions.filter (· ∉ ids ++ [id]) = completions.filter (· ∉ ids) := by
            refine List.filter_congr fun other hother => ?_
            have hne : other ≠ id := fun heq => hnew (heq ▸ hother)
            simp [hne]
          rw [if_neg (fun hcontains => hmem (List.contains_iff_mem.mp hcontains)), ih _ hrest,
            hfilter]
          simp [hmem]
  exact honto hits.completions hits.exact hnodup

theorem mem_ordered {hits : Hits} (hnodup : hits.completions.Nodup) {id : Id} :
    id ∈ hits.ordered ↔ id ∈ hits.exact ∨ id ∈ hits.completions := by
  rw [ordered_eq hnodup, List.mem_append, List.mem_filter, decide_eq_true_eq]
  constructor
  · exact Or.imp_right And.left
  · rintro (hexact | hcompletion)
    · exact Or.inl hexact
    · by_cases hexact : id ∈ hits.exact
      · exact Or.inl hexact
      · exact Or.inr ⟨hcompletion, hexact⟩

theorem nodup_ordered {hits : Hits} (hexact : hits.exact.Nodup)
    (hcompletions : hits.completions.Nodup) : hits.ordered.Nodup := by
  rw [ordered_eq hcompletions]
  refine hexact.append (hcompletions.filter _) fun id hid hfiltered => ?_
  exact of_decide_eq_true (List.mem_filter.mp hfiltered).2 hid

/-- If the results of each set look different, all do unless the sets have different results of one
look. -/
theorem apart_ordered_iff {t : ResultTable} {hits : Hits} (hexact : Ranked.Apart t hits.exact)
    (hcompletions : Ranked.Apart t hits.completions) :
    Ranked.Apart t hits.ordered ↔
      ∀ a ∈ hits.exact, ∀ b ∈ hits.completions, t.look a = t.look b → a = b := by
  have hnodup : hits.completions.Nodup := List.Nodup.of_map _ hcompletions
  have hfilter : Ranked.Apart t (hits.completions.filter (· ∉ hits.exact)) :=
    hcompletions.sublist (List.filter_sublist.map t.look)
  constructor
  · intro hordered a ha b hb hlook
    exact hordered.eq_of_look ((mem_ordered hnodup).mpr (Or.inl ha))
      ((mem_ordered hnodup).mpr (Or.inr hb)) hlook
  · intro hsame
    rw [ordered_eq hnodup, Ranked.Apart, List.map_append]
    refine List.Nodup.append hexact hfilter fun look hleft hright => ?_
    obtain ⟨a, ha, rfl⟩ := List.mem_map.mp hleft
    obtain ⟨b, hb, hlook⟩ := List.mem_map.mp hright
    obtain ⟨hcompletion, hnew⟩ := List.mem_filter.mp hb
    have heq : a = b := hsame a ha b hcompletion hlook.symm
    exact of_decide_eq_true hnew (heq ▸ ha)

end Hits

/-! ## Sets that are sorted already -/

theorem Ranked.sort_eq_self {t : ResultTable} {set : List Id} (hset : set.Pairwise t.RanksBefore) :
    Ranked.sort t set = set := by
  induction set with
  | nil => rfl
  | cons head set ih =>
      obtain ⟨hfirst, hrest⟩ := List.pairwise_cons.mp hset
      show Ranked.place t head (Ranked.sort t set) = head :: set
      rw [ih hrest]
      cases set with
      | nil => rfl
      | cons next set =>
          exact Ranked.place_cons_of_not_before (hfirst next List.mem_cons_self).asymm

theorem Hits.sort_eq_self {t : ResultTable} {hits : Hits}
    (hexact : hits.exact.Pairwise t.RanksBefore)
    (hcompletions : hits.completions.Pairwise t.RanksBefore) : hits.sort t = hits := by
  rw [Hits.sort, Ranked.sort_eq_self hexact, Ranked.sort_eq_self hcompletions]

namespace Forest

/-- A text finds the changed sets of the node that it found before. -/
theorem lookup_mapHits {g : Hits → Hits} (hnone : g {} = {})
    (hcut : ∀ hits : Hits,
      g { completions := hits.completions } = { completions := (g hits).completions })
    (f : Forest) (text : List UInt8) : (f.mapHits g).lookup text = g (f.lookup text) := by
  induction f generalizing text with
  | nil => exact hnone.symm
  | cons label hits below next ihBelow ihNext =>
      simp only [mapHits, lookup]
      split
      · exact ihNext text
      · split
        · split
          · rfl
          · exact ihBelow _
        · split
          · exact (hcut hits).symm
          · exact hnone.symm

end Forest

theorem Trie.lookup_mapHits {g : Hits → Hits} (hnone : g {} = {})
    (hcut : ∀ hits : Hits,
      g { completions := hits.completions } = { completions := (g hits).completions })
    (t : Trie) (text : List UInt8) : (t.mapHits g).lookup text = g (t.lookup text) := by
  unfold Trie.lookup
  split
  · rfl
  · exact Forest.lookup_mapHits hnone hcut t.forest text

namespace Index

theorem lookup_sorted (index : Index) (query : String) :
    index.sorted.lookup query = (index.lookup query).sort index.table :=
  Trie.lookup_mapHits rfl (fun _ => rfl) index.trie _

/-! ## Results that are left out of the completions -/

section

variable {index : Index} {terms : List Term} {text : List UInt8} {a b : Id}

/-- The exact texts of a result are made of its name. -/
theorem OwnsExactly.of_look (howns : index.OwnsExactly a text) (hb : index.table.IsKept b)
    (hlook : index.table.look a = index.table.look b) : index.OwnsExactly b text := by
  obtain ⟨-, name, hname, htext⟩ := howns
  have hsame : (index.table.get a).name = (index.table.get b).name := congrArg Prod.fst hlook
  refine ⟨hb, name, ?_, htext⟩
  rwa [exactTexts, ← hsame]

/-- Unless results stand in each other's way, the completions hold the lowest ID of a look like the
exact results. -/
theorem Collected.eq_of_look [Search] (hterms : index.Collected terms) {bound : Nat}
    (hsettled : Ranked.Settled index.table bound (index.OwnsFrom text))
    (ha : a ∈ Ranked.insertAll index.table none (Term.exactIds terms text) [])
    (hb : b ∈ Ranked.insertAll index.table (some bound) (Term.completionIds terms text) [])
    (hlook : index.table.look a = index.table.look b) : a = b := by
  have hsettledIds : Ranked.Settled index.table bound (· ∈ Term.completionIds terms text) :=
    hsettled.mono fun id hid => (hterms.mem_completionIds text id).mp hid
  rw [Ranked.insertAll_some_eq_take hsettledIds] at hb
  have haLow := ((Ranked.lists_lowest_insertAll index.table _).mem_iff a).mp ha
  have hbLow := ((Ranked.lists_lowest_insertAll index.table _).mem_iff b).mp (List.mem_of_mem_take hb)
  have haOwns : index.OwnsExactly a text := (hterms.mem_exactIds text a).mp haLow.1
  obtain ⟨longer, hbOwns, -⟩ := (hterms.mem_completionIds text b).mp hbLow.1
  -- each of them has the text exactly and as a completion, so neither ID is below the other
  have haCompletes : a ∈ Term.completionIds terms text :=
    (hterms.mem_completionIds text a).mpr ⟨text, Or.inl haOwns, List.prefix_refl text⟩
  have hbExact : b ∈ Term.exactIds terms text :=
    (hterms.mem_exactIds text b).mpr (haOwns.of_look hbOwns.isKept hlook)
  exact Nat.le_antisymm (haLow.2 b hbExact (ResultTable.sameTarget_iff.mpr hlook.symm))
    (hbLow.2 a haCompletes (ResultTable.sameTarget_iff.mpr hlook))

end

end Index

/-- A bound that is not reached pushes no result out. -/
theorem Ranked.settled_of_size_le {t : ResultTable} {bound size : Nat} {P : Id → Prop}
    (hP : ∀ id, P id → id < size) (hsize : size ≤ bound) : Ranked.Settled t bound P := by
  intro a b others hstrands hlength
  have hids : ∀ id ∈ a :: others, id < size := by
    intro id hid
    rcases List.mem_cons.mp hid with rfl | hid
    · exact hP id hstrands.left
    · exact hP id (hstrands.holds id hid)
  have hcount : (a :: others).length ≤ size := IdSet.length_le ⟨hstrands.apart.nodup, hids⟩
  rw [List.length_cons] at hcount
  omega

/-! ## Queries -/

/-- A query of a file lists the results of the table that the lookup finds. -/
theorem Frozen.Fits.query_eq {frozen : Frozen} (hfits : frozen.Fits)
    (hforest : frozen.table.AliasForest) {query : String}
    (hids : ∀ id ∈ (frozen.toIndex.lookup query).ordered, id < frozen.table.size) :
    frozen.reopened.query query =
      .ok ((frozen.toIndex.lookup query).ordered.map frozen.table.result) := by
  refine except_bind_eq_ok.mpr ⟨_, hfits.lookup_eq query, ?_⟩
  exact mapM_eq_ok_of_forall fun id hid => hfits.result_eq hforest (hids id hid)

namespace Index

/-- The name and the URL of a result are the look of its ID. -/
theorem looks_of_results (t : ResultTable) (ids : List Id) :
    (ids.map t.result).map (fun result => (result.name, result.url)) = ids.map t.look := by
  rw [List.map_map]
  rfl

theorem ids_of_results (t : ResultTable) (ids : List Id) : (ids.map t.result).map (·.id) = ids := by
  rw [List.map_map]
  exact List.map_id ids

section

variable [Search] {config : Config} {entries : List Entry} {index : Index} {frozen : Frozen}

theorem sound_of_addAll (hadd : (empty config).addAll entries = .ok index) : index.Sound := by
  refine foldlM_keeps (P := Sound) hadd ?_ (Sound.empty config)
  intro index entry next hindex hnext
  obtain ⟨⟨id, added⟩, hstep, hresult⟩ := except_bind_eq_ok.mp hnext
  cases hresult
  exact hindex.add hstep

/-- Sets that were filled by insertions are ranked already, so freezing them changes no answer. -/
theorem lookup_of_finalize {last : Index} {terms : List Term}
    (hfinal : (last.withTree terms).finalize = .ok frozen) (query : String) :
    frozen.toIndex.lookup query = (last.withTree terms).lookup query := by
  rw [(finalize_eq_ok hfinal).1, lookup_sorted]
  refine Hits.sort_eq_self ?_ ?_
  · rw [lookup_withTree]
    exact (Ranked.ranked_apart_insertAll last.table none _).1
  · rw [lookup_withTree]
    exact (Ranked.ranked_apart_insertAll last.table (some last.config.maxCompletions) _).1

theorem apart_of_lookup (last : Index) (terms : List Term) (query : String) :
    Ranked.Apart last.table ((last.withTree terms).lookup query).exact ∧
      Ranked.Apart last.table ((last.withTree terms).lookup query).completions := by
  rw [lookup_withTree]
  exact ⟨(Ranked.ranked_apart_insertAll last.table none _).2,
    (Ranked.ranked_apart_insertAll last.table (some last.config.maxCompletions) _).2⟩

theorem Collected.lt_of_mem_lookup {last : Index} {terms : List Term}
    (hterms : last.Collected terms) {query : String} {id : Id}
    (hid : id ∈ ((last.withTree terms).lookup query).exact ∨
      id ∈ ((last.withTree terms).lookup query).completions) : id < last.table.size := by
  have hlookup : (last.withTree terms).lookup query =
      ((Trie.ofTerms last.table last.config.maxCompletions terms).place
        (Text.utf8 (last.normalize query))).hits := by
    rw [← Trie.lookup_eq_place (Trie.wellFormed_ofTerms _ _ _)]
    rfl
  rw [hlookup] at hid
  exact (hterms.isKept (Trie.mem_ids_of_mem_place last.table hid)).1

/-- A query of the file of an index to which entries were added lists the results that the index
finds. -/
theorem query_of_addAll (hadd : (empty config).addAll entries = .ok index)
    (hfinal : index.finalize = .ok frozen) :
    SearchData.parse frozen.encode.toArray = .ok frozen.reopened ∧
      ∀ query, frozen.reopened.query query =
        .ok ((index.lookup query).ordered.map index.table.result) := by
  have hsound : index.Sound := sound_of_addAll hadd
  have hfits := hsound.fits hfinal
  refine ⟨hfits.parse_eq, fun query => ?_⟩
  obtain ⟨terms, last, -, hterms, -, rfl⟩ := addAll_eq_ok hadd
  have htable : frozen.table = last.table := by
    rw [(finalize_eq_ok hfinal).1]
    rfl
  have hforest : frozen.table.AliasForest := htable ▸ hsound.forest
  have hlookup := lookup_of_finalize hfinal query
  have hids : ∀ id ∈ (frozen.toIndex.lookup query).ordered, id < frozen.table.size := by
    intro id hid
    rw [hlookup, Hits.mem_ordered (apart_of_lookup last terms query).2.nodup] at hid
    rw [htable]
    exact hterms.lt_of_mem_lookup hid
  have hquery := hfits.query_eq hforest hids
  rwa [hlookup, htable] at hquery

/-- A query of the file of an index to which entries were added lists each result once.  It lists
two results with one name and one URL exactly if the completions hold another result of the look of
an exact one, which needs results in each other's way, and so a bound that is reached. -/
theorem query_addAll (hadd : (empty config).addAll entries = .ok index)
    (hfinal : index.finalize = .ok frozen) :
    ∃ d, SearchData.parse frozen.encode.toArray = .ok d ∧ ∀ query : String,
      ∃ results, d.query query = .ok results ∧
        results.map (·.id) = (index.lookup query).ordered ∧ (results.map (·.id)).Nodup ∧
        ((results.map fun result => (result.name, result.url)).Nodup ↔
          ∀ a ∈ (index.lookup query).exact, ∀ b ∈ (index.lookup query).completions,
            index.table.sameTarget a b = true → a = b) ∧
        (Ranked.Settled index.table config.maxCompletions
            (index.OwnsFrom (Text.utf8 (Text.normalize config.caseInsensitive query))) →
          (results.map fun result => (result.name, result.url)).Nodup) ∧
        (index.table.size ≤ config.maxCompletions →
          (results.map fun result => (result.name, result.url)).Nodup) := by
  obtain ⟨hparse, hquery⟩ := query_of_addAll hadd hfinal
  obtain ⟨terms, last, -, hterms, rfl, rfl⟩ := addAll_eq_ok hadd
  refine ⟨frozen.reopened, hparse, fun query => ⟨_, hquery query, ids_of_results _ _, ?_⟩⟩
  rw [ids_of_results, looks_of_results]
  obtain ⟨hexact, hcompletions⟩ := apart_of_lookup last terms query
  have hiff := Hits.apart_ordered_iff hexact hcompletions
  have hsettled : Ranked.Settled last.table last.config.maxCompletions
      (last.OwnsFrom (Text.utf8 (last.normalize query))) →
        Ranked.Apart last.table ((last.withTree terms).lookup query).ordered := by
    refine fun hsettled => hiff.mpr fun a ha b hb hlook => ?_
    rw [lookup_withTree] at ha hb
    exact hterms.eq_of_look hsettled ha hb hlook
  refine ⟨Hits.nodup_ordered hexact.nodup hcompletions.nodup, ?_, hsettled, fun hsize => ?_⟩
  · simp only [ResultTable.sameTarget_iff]
    exact hiff
  · refine hsettled (Ranked.settled_of_size_le ?_ hsize)
    rintro id ⟨_, howns, -⟩
    exact howns.isKept.1

end

theorem query_addAll_minimumEntries :
    ∃ index frozen, (empty {}).addAll minimumEntries = .ok index ∧ index.finalize = .ok frozen ∧
      ∃ d results, SearchData.parse frozen.encode.toArray = .ok d ∧ d.query "min" = .ok results ∧
        results.map (·.id) = [0, 2] ∧
        (results.map fun result => (result.name, result.url)).Nodup := by
  have hrun : (((empty {}).addAll minimumEntries).toOption.bind fun index =>
      index.finalize.toOption.map fun _ =>
        ((index.lookup "min").ordered, decide (index.table.size ≤ index.config.maxCompletions))) =
          some ([0, 2], true) := by
    decide +kernel
  obtain ⟨index, hindex, hrun⟩ := Option.bind_eq_some_iff.mp hrun
  obtain ⟨frozen, hfrozen, hfacts⟩ := Option.map_eq_some_iff.mp hrun
  rw [toOption_eq_some] at hindex hfrozen
  obtain ⟨hordered, hsize⟩ := Prod.mk.inj hfacts
  obtain ⟨d, hparse, hquery⟩ := query_addAll hindex hfrozen
  obtain ⟨results, hresults, hids, -, -, -, honce⟩ := hquery "min"
  obtain ⟨_, _, -, -, hconfig, rfl⟩ := addAll_eq_ok hindex
  refine ⟨_, frozen, hindex, hfrozen, d, results, hparse, hresults, hids.trans hordered, honce ?_⟩
  rw [← hconfig]
  exact of_decide_eq_true hsize

/-- A page, a deprecated alias of it, a page with a longer name, and an alias named like the first
one. -/
def forgottenAliases : List Entry := [
  { name := "t", url := "t.html", kind := .page },
  { Entry.aliasTo "xx" 0 with flags := Flags.none.setDeprecated },
  { name := "xxlong", url := "m.html", kind := .page },
  .aliasTo "xx" 0]

/-- The longer page pushes the deprecated alias out of the only place among the completions, and
then the other alias pushes the page out. So the query lists one alias as exact and the other one as
a completion. -/
theorem query_repeats_forgottenAliases :
    ∃ index frozen, (empty { maxCompletions := 1 }).addAll forgottenAliases = .ok index ∧
      index.finalize = .ok frozen ∧
      ∃ d results, SearchData.parse frozen.encode.toArray = .ok d ∧ d.query "xx" = .ok results ∧
        results.map (fun result => (result.id, result.name, result.url)) =
          [(1, "xx", "t.html"), (3, "xx", "t.html")] ∧
        ¬ (results.map fun result => (result.name, result.url)).Nodup := by
  have hrun : (((empty { maxCompletions := 1 }).addAll forgottenAliases).toOption.bind fun index =>
      index.finalize.toOption.map fun _ =>
        ((index.lookup "xx").ordered.map index.table.result).map fun result =>
          (result.id, result.name, result.url)) =
            some [(1, "xx", "t.html"), (3, "xx", "t.html")] := by
    decide +kernel
  obtain ⟨index, hindex, hrun⟩ := Option.bind_eq_some_iff.mp hrun
  obtain ⟨frozen, hfrozen, hresults⟩ := Option.map_eq_some_iff.mp hrun
  rw [toOption_eq_some] at hindex hfrozen
  obtain ⟨hparse, hquery⟩ := query_of_addAll hindex hfrozen
  refine ⟨index, frozen, hindex, hfrozen, frozen.reopened, _, hparse, hquery "xx", hresults, ?_⟩
  have hlooks : (((index.lookup "xx").ordered.map index.table.result).map fun result =>
      (result.name, result.url)) = [("xx", "t.html"), ("xx", "t.html")] := by
    have hsecond := congrArg (List.map Prod.snd) hresults
    rwa [List.map_map] at hsecond
  rw [hlooks]
  decide

end Index

end PrefixSearch
