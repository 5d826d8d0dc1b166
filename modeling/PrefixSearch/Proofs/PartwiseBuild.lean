import PrefixSearch.Proofs.Retrieval
import PrefixSearch.Proofs.Trie.Merging

/-!
# Building an index in parts

An index that is built in parts registers its entries first and then merges the trees of parts of
their texts.  It is refused where adding the entries one after the other is refused, and it has the
same table, the same nodes and the same exact results.  It is the same index exactly if every text
has the same completions when the bounded sets of the parts are merged, and it is so if no results
stand in each other's way among the completions of a text.  Otherwise the parts may keep a result
that the whole forgets: a part may lack the result with the lower ID that keeps another one out.
-/

namespace PrefixSearch

namespace Term

/-- The texts in parts of `size`, but at least one. -/
def chunks (size : Nat) (terms : List Term) : List (List Term) :=
  if terms = [] then
    []
  else
    terms.take (max size 1) :: chunks size (terms.drop (max size 1))
termination_by terms.length
decreasing_by
  have hpos := List.length_pos_iff.mpr ‹terms ≠ []›
  rw [List.length_drop]
  omega

theorem chunks_nil (size : Nat) : chunks size [] = [] := by
  rw [chunks, if_pos rfl]

theorem chunks_of_ne {size : Nat} {terms : List Term} (hterms : terms ≠ []) :
    chunks size terms = terms.take (max size 1) :: chunks size (terms.drop (max size 1)) := by
  rw [chunks, if_neg hterms]

theorem flatten_chunks (size : Nat) (terms : List Term) : (chunks size terms).flatten = terms := by
  fun_induction chunks size terms with
  | case1 => rfl
  | case2 terms hterms ih => rw [List.flatten_cons, ih, List.take_append_drop]

variable [Search]

/-- The completions of a text when each part of the texts has a bounded set of its own, and these
sets are put into one. -/
def completionsOfParts (table : ResultTable) (bound : Nat) (text : List UInt8) (set : List Id)
    (parts : List (List Term)) : List Id :=
  parts.foldl (fun set part =>
    Ranked.insertAll table (some bound)
      (Ranked.insertAll table (some bound) (completionIds part text) []) set) set

/-- Where the order of the results does not count, the sets of the parts make the set of all. -/
theorem completionsOfParts_eq {table : ResultTable} {bound : Nat} {text : List UInt8}
    {done : List Term} {parts : List (List Term)}
    (horder : Ranked.OrderIrrelevant table (some bound)
      (completionIds (done ++ parts.flatten) text)) :
    completionsOfParts table bound text
        (Ranked.insertAll table (some bound) (completionIds done text) []) parts =
      Ranked.insertAll table (some bound) (completionIds (done ++ parts.flatten) text) [] := by
  induction parts generalizing done with
  | nil => rw [List.flatten_nil, List.append_nil]; rfl
  | cons part parts ih =>
      rw [List.flatten_cons, ← List.append_assoc] at horder ⊢
      have hpart : Ranked.OrderIrrelevant table (some bound)
          (completionIds done text ++ completionIds part text) := by
        refine horder.mono fun id hid => ?_
        rw [completionIds_append, completionIds_append]
        exact List.mem_append_left _ hid
      rw [completionsOfParts, List.foldl_cons, Ranked.insertAll_insertAll hpart,
        ← completionIds_append]
      exact ih horder

end Term

namespace Trie

variable [Search] {table : ResultTable}

/-- Merge the trees of parts of some texts, one after the other. -/
def mergeChunks (table : ResultTable) (parts : List (List Term)) (t : Trie) : Trie :=
  parts.foldl (fun t part => t.merge table (ofTerms table t.bound part)) t

theorem mergeChunks_cons (part : List Term) (parts : List (List Term)) (t : Trie) :
    mergeChunks table (part :: parts) t =
      mergeChunks table parts (t.merge table (ofTerms table t.bound part)) := rfl

@[simp] theorem bound_mergeChunks (parts : List (List Term)) (t : Trie) :
    (mergeChunks table parts t).bound = t.bound := by
  induction parts generalizing t with
  | nil => rfl
  | cons part parts ih =>
      rw [mergeChunks_cons, ih]
      rfl

/-- However the texts are divided, the parts make the form and the exact results of the whole. -/
theorem Holds.mergeChunks {done : List Term} {t : Trie} (ht : Holds table done t)
    (parts : List (List Term)) :
    Holds table (done ++ parts.flatten) (mergeChunks table parts t) := by
  induction parts generalizing done t with
  | nil => rwa [List.flatten_nil, List.append_nil]
  | cons part parts ih =>
      rw [List.flatten_cons, ← List.append_assoc]
      exact ih (ht.merge (holds_ofTerms table t.bound part))

/-- The completions of a text come from its completions in the parts alone. -/
theorem completions_mergeChunks {t : Trie} (ht : t.forest.WellFormed) (parts : List (List Term))
    (text : List UInt8) :
    ((mergeChunks table parts t).place text).hits.completions =
      Term.completionsOfParts table t.bound text (t.place text).hits.completions parts := by
  induction parts generalizing t with
  | nil => rfl
  | cons part parts ih =>
      have hpart := wellFormed_ofTerms table t.bound part
      rw [mergeChunks_cons, ih (wellFormed_merge table ht hpart), place_merge table ht hpart]
      simp only [Place.merge, Hits.absorb, hits_place_ofTerms, Term.completionsOfParts,
        List.foldl_cons]
      rfl

theorem completions_mergeChunks_ofTerms (table : ResultTable) (bound : Nat)
    (parts : List (List Term)) (text : List UInt8) :
    ((mergeChunks table parts (ofTerms table bound [])).place text).hits.completions =
      Term.completionsOfParts table bound text [] parts := by
  rw [completions_mergeChunks (wellFormed_ofTerms table bound []), hits_place_ofTerms,
    bound_ofTerms]
  rfl

/-- The parts make the whole exactly if they do so in the completions of every text. -/
theorem mergeChunks_eq_ofTerms_iff (table : ResultTable) (bound : Nat) (parts : List (List Term)) :
    mergeChunks table parts (ofTerms table bound []) = ofTerms table bound parts.flatten ↔
      ∀ text, Term.completionsOfParts table bound text [] parts =
        Ranked.insertAll table (some bound) (Term.completionIds parts.flatten text) [] := by
  constructor
  · intro hsame text
    rw [← completions_mergeChunks_ofTerms, hsame, hits_place_ofTerms]
  · intro hsame
    refine ((holds_ofTerms table bound []).mergeChunks parts).eq_ofTerms ?_ fun text => ?_
    · rw [bound_mergeChunks, bound_ofTerms]
    · rw [completions_mergeChunks_ofTerms, hsame, List.nil_append]

end Trie

namespace Index

theorem mergeParts_eq [Search] (table : ResultTable) (size : Nat) (terms : List Term) (trie : Trie) :
    mergeParts table size terms trie =
      Trie.mergeChunks table (Term.chunks size terms) trie := by
  fun_induction mergeParts table size terms trie with
  | case1 trie =>
      rw [Term.chunks_nil]
      rfl
  | case2 trie terms hterms part ih =>
      rw [Term.chunks_of_ne hterms, Trie.mergeChunks_cons, ih]
      rfl

section

variable [Search] {config : Config} {entries : List Entry} {terms : List Term} {last : Index}

/-- Both ways to build begin with the same registration. -/
theorem build_of_error {fault : IndexError}
    (hregister : (empty config).registerAll entries = .error fault) :
    buildInParts config entries = .error fault ∧ (empty config).addAll entries = .error fault := by
  constructor
  · rw [buildInParts, hregister]
    rfl
  · rw [addAll_eq, hregister]
    rfl

theorem addAll_of_registerAll (hregister : (empty config).registerAll entries = .ok (terms, last)) :
    (empty config).addAll entries = .ok (last.withTree terms) := by
  rw [addAll_eq, hregister]
  rfl

theorem buildInParts_of_registerAll
    (hregister : (empty config).registerAll entries = .ok (terms, last)) :
    buildInParts config entries = .ok { last with
      trie := Trie.mergeChunks last.table (Term.chunks config.parallelChunkSize terms)
        (Trie.ofTerms last.table config.maxCompletions []) } := by
  obtain ⟨-, -, htrie⟩ := registerAll_eq_ok hregister
  rw [← mergeParts_eq, ← htrie, buildInParts, hregister]
  rfl

/-- The outcomes are the same exactly if the parts make the completions of the whole. -/
theorem buildInParts_eq_addAll_iff
    (hregister : (empty config).registerAll entries = .ok (terms, last)) :
    buildInParts config entries = (empty config).addAll entries ↔
      ∀ text, Term.completionsOfParts last.table config.maxCompletions text []
          (Term.chunks config.parallelChunkSize terms) =
        Ranked.insertAll last.table (some config.maxCompletions)
          (Term.completionIds terms text) [] := by
  obtain ⟨-, hconfig, -⟩ := registerAll_eq_ok hregister
  have htrees := Trie.mergeChunks_eq_ofTerms_iff last.table config.maxCompletions
    (Term.chunks config.parallelChunkSize terms)
  rw [Term.flatten_chunks] at htrees
  rw [← htrees, buildInParts_of_registerAll hregister, addAll_of_registerAll hregister, withTree,
    hconfig, Except.ok.injEq, Index.mk.injEq]
  simp only [true_and]

/-- If no results stand in each other's way, the parts make the completions of the whole. -/
theorem completionsOfParts_of_settled
    (hregister : (empty config).registerAll entries = .ok (terms, last)) {text : List UInt8}
    (hsettled : Ranked.Settled last.table config.maxCompletions
      ((last.withTree terms).OwnsFrom text)) :
    Term.completionsOfParts last.table config.maxCompletions text []
        (Term.chunks config.parallelChunkSize terms) =
      Ranked.insertAll last.table (some config.maxCompletions)
        (Term.completionIds terms text) [] := by
  obtain ⟨hterms, -, -⟩ := registerAll_eq_ok hregister
  have horder : Ranked.OrderIrrelevant last.table (some config.maxCompletions)
      (Term.completionIds ([] ++ (Term.chunks config.parallelChunkSize terms).flatten) text) := by
    rw [List.nil_append, Term.flatten_chunks]
    exact Ranked.orderIrrelevant_some
      (hsettled.mono fun id hid => (hterms.mem_completionIds text id).mp hid)
  have hparts := Term.completionsOfParts_eq horder
  rwa [List.nil_append, Term.flatten_chunks] at hparts

end

/-- Building in parts fails where adding the entries fails, with the same error; otherwise the table
and the exact results are the same.  The outcome is the same altogether exactly if the bounded sets
of the parts make the completions of the whole, and so if no results stand in each other's way among
the completions of a text. -/
theorem buildInParts_addAll [Search] (config : Config) (entries : List Entry) :
    (∀ fault, buildInParts config entries = .error fault ↔
      (empty config).addAll entries = .error fault) ∧
    (∀ parts whole, buildInParts config entries = .ok parts →
      (empty config).addAll entries = .ok whole →
        parts.config = whole.config ∧ parts.table = whole.table ∧
          ∀ query, (parts.lookup query).exact = (whole.lookup query).exact) ∧
    (∀ terms last, (empty config).registerAll entries = .ok (terms, last) →
      (buildInParts config entries = (empty config).addAll entries ↔
        ∀ text, Term.completionsOfParts last.table config.maxCompletions text []
            (Term.chunks config.parallelChunkSize terms) =
          Ranked.insertAll last.table (some config.maxCompletions)
            (Term.completionIds terms text) [])) ∧
    ((∀ whole, (empty config).addAll entries = .ok whole →
      ∀ text, Ranked.Settled whole.table config.maxCompletions (whole.OwnsFrom text)) →
        buildInParts config entries = (empty config).addAll entries) := by
  cases hregister : (empty config).registerAll entries with
  | error fault =>
      obtain ⟨hparts, hwhole⟩ := build_of_error hregister
      rw [hparts, hwhole]
      exact ⟨fun _ => Iff.rfl, by simp, by simp, fun _ => rfl⟩
  | ok result =>
      -- both ways have registered the same entries and differ in their trees only
      obtain ⟨terms, last⟩ := result
      have hparts := buildInParts_of_registerAll hregister
      have hwhole := addAll_of_registerAll hregister
      have hsame := buildInParts_eq_addAll_iff hregister
      refine ⟨?_, ?_, ?_, ?_⟩
      · rw [hparts, hwhole]
        simp
      · rw [hparts, hwhole]
        rintro _ _ ⟨⟩ ⟨⟩
        refine ⟨rfl, rfl, fun query => ?_⟩
        have hholds := (Trie.holds_ofTerms last.table config.maxCompletions []).mergeChunks
          (Term.chunks config.parallelChunkSize terms)
        rw [List.nil_append, Term.flatten_chunks] at hholds
        rw [lookup_withTree]
        show (Trie.lookup _ (Text.utf8 (last.normalize query))).exact = _
        rw [Trie.lookup_eq_place hholds.wellFormed, hholds.exact_eq]
      · rintro _ _ ⟨⟩
        exact hsame
      · intro hsettled
        exact hsame.mpr fun text => completionsOfParts_of_settled hregister (hsettled _ hwhole text)

/-- A page and two aliases of it with one name. -/
def minimumAliases : List Entry := [
  { name := "min", url := "min.html", kind := .page },
  .aliasTo "minimum" 0,
  .aliasTo "minimum" 0]

theorem buildInParts_addAll_minimumAliases :
    let config : Config := { maxCompletions := 1, parallelChunkSize := 2 }
    (buildInParts config minimumAliases).toOption.map (·.lookup "mini") =
        some { completions := [1] } ∧
      buildInParts config minimumAliases = (empty config).addAll minimumAliases := by
  intro config
  have hranks : ((empty config).addAll minimumAliases).toOption.map (fun whole =>
      decide (whole.table.RanksFollowIds (· ∈ List.range whole.table.size))) = some true := by
    decide +kernel
  refine ⟨by decide +kernel, (buildInParts_addAll config minimumAliases).2.2.2 ?_⟩
  intro whole hwhole text
  rw [hwhole] at hranks
  refine Ranked.settled_of_ranksFollowIds _ ((of_decide_eq_true (Option.some.inj hranks)).mono ?_)
  rintro id ⟨_, howns, -⟩
  exact List.mem_range.mpr howns.isKept.1

/-- Two aliases of one look, of which the one with the lower ID is deprecated, and a page that ranks
between them. -/
def strandedAliases : List Entry := [
  { name := "t", url := "t.html", kind := .page },
  { Entry.aliasTo "xx" 0 with flags := Flags.none.setDeprecated },
  { name := "xlong", url := "m.html", kind := .page },
  .aliasTo "xx" 0]

/-- In the whole, the page pushes the deprecated alias out and then the other alias comes in.  In
parts, the other alias has pushed the page out of its part, and the deprecated one keeps it out of
the whole. -/
theorem buildInParts_ne_addAll_strandedAliases :
    let config : Config :=
      { maxCompletions := 1, parallelChunkSize := 2, indexScopeSuffixes := false }
    (buildInParts config strandedAliases).toOption.map (·.lookup "x") ≠
      ((empty config).addAll strandedAliases).toOption.map (·.lookup "x") := by
  decide +kernel

end Index

end PrefixSearch
