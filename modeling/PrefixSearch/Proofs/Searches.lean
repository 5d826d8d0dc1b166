import PrefixSearch.Proofs.MadeIndexes

/-!
# When it matters how sets are searched

Additions keep every set in rank order, and in such a set every search ends at the same spot.  So what
is built from entries, one after the other or in parts, is the same index with every search, and so is
what any other operations make that merge no entries.  A merge may leave a set in another order, and
then one search keeps other results than another one.
-/

namespace PrefixSearch

/-! ## Sets in rank order -/

namespace Ranked

variable {t : ResultTable} {bound : Option Nat} {set : List Id} (first second : Search)

theorem insert_eq (hset : set.Pairwise t.RanksBefore) (id : Id) :
    @insert first t bound id set = @insert second t bound id set := by
  have hput : ∀ list : List Id, list.Pairwise t.RanksBefore →
      @put first t id list = @put second t id list := fun list hlist =>
    (@put_eq_place t list first hlist id).trans (@put_eq_place t list second hlist id).symm
  unfold insert
  rw [hput set hset]
  cases set.find? (t.sameTarget · id) with
  | none => rfl
  | some other => simp only [hput _ (hset.sublist List.erase_sublist)]

theorem insertAll_onto_eq (ids : List Id) (hranked : set.Pairwise t.RanksBefore)
    (hapart : Apart t set) :
    @insertAll first t bound ids set = @insertAll second t bound ids set := by
  induction ids generalizing set with
  | nil => rfl
  | cons head ids ih =>
      have hnext := @ranked_apart_insert t set second bound head hranked hapart
      rw [@insertAll_cons, @insertAll_cons, insert_eq first second hranked]
      exact ih hnext.1 hnext.2

theorem insertAll_eq (t : ResultTable) (bound : Option Nat) (ids : List Id) :
    @insertAll first t bound ids [] = @insertAll second t bound ids [] :=
  insertAll_onto_eq first second ids List.Pairwise.nil List.nodup_nil

end Ranked

/-- The sets of the parts of some texts make the same set with every search. -/
theorem Term.completionsOfParts_eq_of_searches (first second : Search) {table : ResultTable}
    {bound : Nat} {text : List UInt8} {set : List Id} (parts : List (List Term))
    (hranked : set.Pairwise table.RanksBefore) (hapart : Ranked.Apart table set) :
    @completionsOfParts first table bound text set parts =
      @completionsOfParts second table bound text set parts := by
  induction parts generalizing set with
  | nil => rfl
  | cons part parts ih =>
      have hnext := @Ranked.ranked_apart_insertAll_onto table set second (some bound)
        (@Ranked.insertAll second table (some bound) (completionIds part text) []) hranked hapart
      unfold completionsOfParts at ih ⊢
      rw [List.foldl_cons, List.foldl_cons, Ranked.insertAll_eq first second,
        Ranked.insertAll_onto_eq first second _ hranked hapart]
      exact ih hnext.1 hnext.2

/-! ## Trees of texts -/

namespace Trie

variable (first second : Search) (table : ResultTable) (bound : Nat)

/-- The form of a tree of texts and its exact results are the same with every search. -/
theorem Holds.of_search {terms : List Term} {t : Trie} (ht : @Holds first table terms t) :
    @Holds second table terms t := by
  obtain ⟨hwell, hnode, hinside, hexact⟩ := ht
  refine @Holds.mk second _ _ _ hwell hnode hinside fun text => ?_
  rw [hexact, Ranked.insertAll_eq first second]

theorem ofTerms_eq (terms : List Term) :
    @ofTerms first table bound terms = @ofTerms second table bound terms := by
  refine @Holds.eq_ofTerms second table bound terms _
    (Holds.of_search first second table (@holds_ofTerms first table bound terms))
    (@bound_ofTerms first table bound terms) fun text => ?_
  rw [@hits_place_ofTerms first]
  exact Ranked.insertAll_eq first second table (some bound) (Term.completionIds terms text)

theorem mergeChunks_eq (parts : List (List Term)) :
    @mergeChunks first table parts (@ofTerms first table bound []) =
      @mergeChunks second table parts (@ofTerms second table bound []) := by
  have hfirst := @holds_ofTerms first table bound []
  have hsecond := @holds_ofTerms second table bound []
  refine @Holds.unique second table _ _ _
    (Holds.of_search first second table (@Holds.mergeChunks first table _ _ hfirst parts))
    (@Holds.mergeChunks second table _ _ hsecond parts) ?_ fun text => ?_
  · rw [@bound_mergeChunks first, @bound_mergeChunks second]
    rfl
  · rw [@completions_mergeChunks_ofTerms first, @completions_mergeChunks_ofTerms second]
    exact Term.completionsOfParts_eq_of_searches first second parts List.Pairwise.nil List.nodup_nil

end Trie

/-! ## Additions -/

namespace Index

/-- The tree of the index is that of some texts of its results, whatever search it was filled with. -/
structure Filled (index : Index) (terms : List Term) : Prop where
  sound : index.Sound
  terms_lt : ∀ term ∈ terms, term.id < index.table.size
  trie_eq : ∀ search : Search,
    index.trie = @Trie.ofTerms search index.table index.config.maxCompletions terms

variable {index next : Index} {terms : List Term} {op : Operation}

theorem Filled.empty (config : Config) : (Index.empty config).Filled [] :=
  ⟨Sound.empty config, nofun, fun _ => rfl⟩

theorem Filled.insertAll_trie [Search] (hindex : index.Filled terms) (more : List Term) :
    index.trie.insertAll index.table more =
      Trie.ofTerms index.table index.config.maxCompletions (terms ++ more) := by
  rw [Trie.ofTerms_append, ← hindex.trie_eq]

theorem Filled.grows [search : Search] (hindex : index.Filled terms) (hgrows : Grows index next) :
    ∃ more, next.Filled (terms ++ more) := by
  have hsound : next.Sound := hgrows.sound hindex.sound
  cases hgrows with
  | @row table row hrows _ =>
      refine ⟨[], hsound, ?_, fun other => ?_⟩
      · rw [List.append_nil, ResultTable.size_of_rows hrows]
        exact fun term hterm => Nat.lt_succ_of_lt (hindex.terms_lt term hterm)
      · rw [List.append_nil]
        refine (hindex.trie_eq other).trans (@Trie.ofTerms_congr other _ _ _ _ ?_)
        intro id hid
        obtain ⟨term, hterm, rfl⟩ := List.mem_map.mp hid
        exact hindex.sound.forest.sameFor_of_rows hrows (hindex.terms_lt term hterm)
  | @text term hkept =>
      refine ⟨[term], hsound, ?_, fun other => ?_⟩
      · rw [List.forall_mem_append, List.forall_mem_singleton]
        exact ⟨hindex.terms_lt, hkept.1⟩
      · exact (@Filled.insertAll_trie _ _ search hindex [term]).trans
          (Trie.ofTerms_eq search other _ _ _)

/-- What an operation makes of an index, unless it is a merge. -/
theorem Filled.apply [Search] (hindex : index.Filled terms) (hop : NoMerge index op)
    (happly : index.apply op = .ok next) : ∃ more, next.Filled more := by
  cases hindex.sound.apply_outcome happly with
  | merged => exact absurd rfl (hop _ _)
  | grown _ hgrown =>
      refine hindex.sound.grown_keeps (P := fun mid => ∃ more, mid.Filled more) hgrown ?_
        ⟨terms, hindex⟩
      rintro mid last - ⟨more, hmid⟩ hgrows
      obtain ⟨_, hlast⟩ := hmid.grows hgrows
      exact ⟨_, hlast⟩

section

variable (first second : Search)

/-- A registration searches no set, since the new ID is in none. -/
theorem Sound.register_eq (hindex : index.Sound) (entry : Entry) :
    @Index.register first index entry = @Index.register second index entry := by
  unfold Index.register
  refine except_bind_congr fun _ _ => except_bind_congr fun ⟨id, table⟩ hpush => ?_
  obtain ⟨-, -, rfl, -⟩ := ResultTable.push_eq_ok (mapError_eq_ok.mp hpush)
  have hmerge : ∀ kept, @mergeDuplicate first { index with table } kept index.table.size =
      @mergeDuplicate second { index with table } kept index.table.size := by
    intro kept
    unfold mergeDuplicate
    refine except_bind_congr fun merged _ => ?_
    have hkeep : ∀ search : Search,
        @Trie.replace search merged index.table.size kept index.trie = index.trie := fun search =>
      @Trie.Sound.replace_eq_self search _ _ _ hindex.trie _ (Nat.le_refl _) kept
    dsimp only
    rw [hkeep first, hkeep second]
  simp only [hmerge]

theorem foldlM_registerNext_eq {entries : List Entry} (hindex : index.Sound) (terms : List Term) :
    entries.foldlM (@registerNext first) (terms, index) =
      entries.foldlM (@registerNext second) (terms, index) := by
  induction entries generalizing terms index with
  | nil => rfl
  | cons entry entries ih =>
      have hstep : @registerNext first (terms, index) entry =
          @registerNext second (terms, index) entry := by
        unfold registerNext
        rw [hindex.register_eq first second]
      rw [List.foldlM_cons, List.foldlM_cons, hstep]
      refine except_bind_congr fun ⟨all, next⟩ hnext => ?_
      obtain ⟨id, more, hregister, rfl⟩ := @registerNext_eq_ok second _ _ _ _ _ hnext
      exact ih (@Sound.register second _ _ _ _ _ hindex hregister).1 _

theorem registerAll_eq (config : Config) (entries : List Entry) :
    @registerAll first (empty config) entries = @registerAll second (empty config) entries :=
  foldlM_registerNext_eq first second (Sound.empty config) []

/-- What is built from entries is the same with every search, in parts and as a whole. -/
theorem build_eq (config : Config) (inParts : Bool) (entries : List Entry) :
    @build first config inParts entries = @build second config inParts entries := by
  have hsame := registerAll_eq first second config entries
  unfold build
  cases hregister : @registerAll second (empty config) entries with
  | error fault =>
      obtain ⟨hparts, hwhole⟩ := @build_of_error first config entries fault (hsame.trans hregister)
      obtain ⟨hparts', hwhole'⟩ := @build_of_error second config entries fault hregister
      rw [hparts, hwhole, hparts', hwhole']
  | ok result =>
      obtain ⟨terms, last⟩ := result
      have hfirst := hsame.trans hregister
      rw [@buildInParts_of_registerAll first _ _ _ _ hfirst,
        @buildInParts_of_registerAll second _ _ _ _ hregister,
        @addAll_of_registerAll first _ _ _ _ hfirst, @addAll_of_registerAll second _ _ _ _ hregister,
        Trie.mergeChunks_eq first second]
      unfold withTree
      rw [Trie.ofTerms_eq first second]

theorem Filled.insertAll_eq (hindex : index.Filled terms) (more : List Term) :
    @Trie.insertAll first index.table more index.trie =
      @Trie.insertAll second index.table more index.trie := by
  rw [@Filled.insertAll_trie _ _ first hindex, @Filled.insertAll_trie _ _ second hindex,
    Trie.ofTerms_eq first second]

theorem Filled.add_eq (hindex : index.Filled terms) (entry : Entry) :
    @Index.add first index entry = @Index.add second index entry := by
  unfold Index.add
  rw [hindex.sound.register_eq first second]
  refine except_bind_congr fun ⟨id, more, next⟩ hregister => ?_
  obtain ⟨hgrows, -⟩ := @Sound.register_grows second _ _ _ _ _ hindex.sound hregister
  obtain ⟨added, hnext⟩ := @Filled.grows _ _ _ second hindex hgrows
  dsimp only
  rw [hnext.insertAll_eq first second]

theorem Filled.apply_eq (hindex : index.Filled terms) (hop : NoMerge index op) :
    @Index.apply first index op = @Index.apply second index op := by
  cases op with
  | pushEntry entry => rfl
  | add entry =>
      unfold Index.apply
      dsimp only
      rw [hindex.add_eq first second]
  | addAlias name target =>
      unfold Index.apply addAlias
      dsimp only
      rw [hindex.add_eq first second]
  | insert text id exact =>
      have hinsert : ∀ term, @Trie.insert first index.table term index.trie =
          @Trie.insert second index.table term index.trie := fun term =>
        hindex.insertAll_eq first second [term]
      unfold Index.apply insert
      simp only [hinsert]
  | mergeDuplicate kept gone => exact absurd rfl (hop kept gone)

theorem Filled.applyAll_eq {ops : List Operation} (hindex : index.Filled terms)
    (hops : ∀ index, ∀ op ∈ ops, NoMerge index op) :
    @Index.applyAll first index ops = @Index.applyAll second index ops := by
  induction ops generalizing index terms with
  | nil => rfl
  | cons op ops ih =>
      have hop : NoMerge index op := hops index op List.mem_cons_self
      unfold Index.applyAll at ih ⊢
      rw [List.foldlM_cons, List.foldlM_cons, hindex.apply_eq first second hop]
      refine except_bind_congr fun next hnext => ?_
      obtain ⟨more, hmore⟩ := @Filled.apply _ _ _ _ second hindex hop hnext
      exact ih hmore fun index op hmem => hops index op (List.mem_cons_of_mem _ hmem)

/-- Operations that merge no two entries make the same index with every search. -/
theorem applyAll_eq (config : Config) {ops : List Operation}
    (hops : ∀ index, ∀ op ∈ ops, NoMerge index op) :
    @applyAll first (empty config) ops = @applyAll second (empty config) ops :=
  (Filled.empty config).applyAll_eq first second hops

end

end Index

/-! ## Sets that are not in rank order -/

/-- The search that goes through a set from its front. -/
@[reducible] def Search.scan : Search where
  spot t id set := (set.takeWhile fun other => decide (t.rankKey other < t.rankKey id)).length
  spot_of_split t id front back hfront hback := by
    have hstop : back.takeWhile (fun other => decide (t.rankKey other < t.rankKey id)) = [] := by
      cases back with
      | nil => rfl
      | cons other back =>
          exact List.takeWhile_cons_of_neg (by simpa using hback other List.mem_cons_self)
    rw [List.takeWhile_append_of_pos (by simpa using hfront), hstop, List.append_nil]

/-- Two pages and aliases of a function and a page.  When the function is merged into the page, both
aliases rank as pages, with another page between them, and stand in the wrong order. -/
def swappedAliases : List Index.Operation := [
  .add { name := "A", url := "a.html", kind := .function },
  .add { name := "B", url := "b.html", kind := .page },
  .addAlias "x" 0,
  .pushEntry { name := "y", url := "y.html", kind := .page },
  .addAlias "x" 1,
  .mergeDuplicate 1 0,
  .insert "xy" 3 false]

/-- From the front, the search ends before an alias that the page ranks before.  By halves, it ends
behind another alias that the page ranks behind. -/
example :
    let found := fun _ : Search =>
      ((Index.empty {}).applyAll swappedAliases).toOption.map fun index =>
        (index.lookup "x").completions
    found .scan = some [3, 4, 2] ∧ found .halves = some [4, 2, 3] := by
  decide +kernel

end PrefixSearch
