import PrefixSearch.Proofs.Coverage

/-!
# What a merge makes unfindable

Of two results of one look only the one with the lower ID stays in a set, and stands for the other one.
Nothing remembers that it does.  When the lower one is merged away, or becomes an alias of another page
because its target is, the set shows that page, and the result that it stood for is found no longer.  The
same happens the other way round, when it is the result that leads to another page from then on.

So an entry that was added for a text is found by it, itself or by its URL, until a merge parts it from
those that stand for it.  A merge of two entries with one URL parts nothing, and neither does any merge
an entry that is in the set itself.
-/

namespace PrefixSearch

/-! ## URLs after a merge -/

namespace ResultTable

variable {t : ResultTable} {id kept gone : Id}

/-- The URL that an entry leads to once aliases are followed. -/
def urlOf (t : ResultTable) (id : Id) : String :=
  (t.get (t.resolve id)).url

theorem urlOf_eq_of_look {a b : Id} (hlook : t.look a = t.look b) : t.urlOf a = t.urlOf b :=
  congrArg Prod.snd hlook

namespace AliasForest

theorem urlOf_eq_of_leadsTo {other : Id} (ht : t.AliasForest) (hid : id < t.size)
    (hleads : t.LeadsTo id other) : t.urlOf id = t.urlOf other := by
  rw [urlOf, ht.resolve_eq_of_leadsTo hid hleads, urlOf]

theorem urlOf_merge_of_leadsTo (ht : t.AliasForest) (hmay : t.Mergeable kept gone)
    (hid : id < t.size) (hleads : t.LeadsTo id gone) :
    (t.merge kept gone).urlOf id = t.urlOf kept := by
  have hkept : t.resolve kept = kept := ht.resolve_of_chain hmay.kept_lt (.here _) hmay.isEnd
  have hlook := ht.look_merge_of_leadsTo hmay hid hleads
  rw [urlOf, urlOf, hkept]
  exact congrArg Prod.snd hlook

theorem urlOf_merge_of_not_leadsTo (ht : t.AliasForest) (hmay : t.Mergeable kept gone)
    (hid : id < t.size) (hnot : ¬ t.LeadsTo id gone) :
    (t.merge kept gone).urlOf id = t.urlOf id :=
  congrArg Prod.snd (ht.look_merge_of_not_leadsTo hmay hid hnot)

/-- What takes the place of an entry leads to the same URL as the entry does afterwards. -/
theorem urlOf_moved (ht : t.AliasForest) (hmay : t.Mergeable kept gone) (id : Id) :
    (t.merge kept gone).urlOf (Ranked.moved gone kept id) = (t.merge kept gone).urlOf id := by
  unfold Ranked.moved
  split
  · next hgone =>
    subst hgone
    have hkept : ¬ t.LeadsTo kept id := by
      rw [leadsTo_iff_of_isEnd hmay.isEnd]
      exact hmay.ne
    rw [ht.urlOf_merge_of_leadsTo hmay hmay.gone_lt (LeadsTo.refl t id),
      ht.urlOf_merge_of_not_leadsTo hmay hmay.kept_lt hkept]
  · rfl

end AliasForest

end ResultTable

/-- Without a bound, insertions leave every look of a set and add those of the results. -/
theorem Ranked.exists_look_insertAll [Search] {t : ResultTable} (ids set : List Id)
    (look : String × String) :
    (∃ x ∈ insertAll t none ids set, t.look x = look) ↔
      (∃ id ∈ ids, t.look id = look) ∨ ∃ x ∈ set, t.look x = look := by
  induction ids generalizing set with
  | nil => simp
  | cons id ids ih =>
      have hroom : ∀ count, none = some count → set.length < count := nofun
      rw [insertAll_cons, ih, exists_look_insert hroom, List.exists_mem_cons_iff, or_assoc,
        or_left_comm]

namespace Index

variable {config : Config} {first mid index next : Index} {op : Operation} {term : Term}
  {text : List UInt8} {id kept gone : Id}

/-! ## What a text finds of an entry -/

/-- Some exact result of the text leads to the URL that the entry leads to. -/
def Finds (index : Index) (text : List UInt8) (id : Id) : Prop :=
  ∃ x ∈ (index.trie.lookup text).exact, index.table.urlOf x = index.table.urlOf id

instance (index : Index) (text : List UInt8) (id : Id) : Decidable (index.Finds text id) :=
  inferInstanceAs (Decidable (∃ x ∈ (index.trie.lookup text).exact,
    index.table.urlOf x = index.table.urlOf id))

/-- The merge of `gone` into `kept` parts an entry from all exact results of the text that lead to its
URL: the entry leads to `kept` from then on and these do not, or these do and the entry does not. -/
def Parts (index : Index) (kept gone : Id) (text : List UInt8) (id : Id) : Prop :=
  (index.table.LeadsTo id gone ∧ ∀ x ∈ (index.trie.lookup text).exact,
      ¬ index.table.LeadsTo x gone ∧ index.table.urlOf x ≠ index.table.urlOf kept) ∨
    (¬ index.table.LeadsTo id gone ∧ index.table.urlOf id ≠ index.table.urlOf kept ∧
      ∀ x ∈ (index.trie.lookup text).exact, index.table.urlOf x = index.table.urlOf id →
        index.table.LeadsTo x gone)

/-- An entry that the text finds itself is parted from nothing. -/
theorem not_parts_of_mem (hid : id ∈ (index.trie.lookup text).exact) :
    ¬ index.Parts kept gone text id := by
  rintro (⟨hleads, hothers⟩ | ⟨hnot, -, hothers⟩)
  · exact (hothers id hid).1 hleads
  · exact hnot (hothers id hid rfl)

theorem Grows.lt_size [Search] (hgrows : Grows index next) (hid : id < index.table.size) :
    id < next.table.size := by
  cases hgrows with
  | row hrows _ =>
      rw [ResultTable.size_of_rows hrows]
      exact Nat.lt_succ_of_lt hid
  | text _ => exact hid

namespace Sound

theorem lt_of_mem_exact (hindex : index.Sound) {x : Id}
    (hx : x ∈ (index.trie.lookup text).exact) : x < index.table.size :=
  (hindex.trie.lookup text).1.2 x hx

/-- A merge of two entries with one URL parts nothing that is found. -/
theorem not_parts_of_urlOf (hindex : index.Sound) (hid : id < index.table.size)
    (hurl : index.table.urlOf gone = index.table.urlOf kept) (hfinds : index.Finds text id) :
    ¬ index.Parts kept gone text id := by
  obtain ⟨x, hx, hsame⟩ := hfinds
  rintro (⟨hleads, hothers⟩ | ⟨-, hother, hothers⟩)
  · refine (hothers x hx).2 ?_
    rw [hsame, hindex.forest.urlOf_eq_of_leadsTo hid hleads, hurl]
  · refine hother ?_
    rw [← hsame, hindex.forest.urlOf_eq_of_leadsTo (hindex.lt_of_mem_exact hx)
      (hothers x hx hsame), hurl]

variable [Search]

/-- After a merge, the text finds an entry if some exact result from before has its URL now. -/
theorem finds_merged_iff (hindex : index.Sound) (hmay : index.table.Mergeable kept gone) :
    (index.merged kept gone).Finds text id ↔ ∃ x ∈ (index.trie.lookup text).exact,
      (index.table.merge kept gone).urlOf x = (index.table.merge kept gone).urlOf id := by
  have hexact : ((index.merged kept gone).trie.lookup text).exact =
      Ranked.replace (index.table.merge kept gone) none gone kept
        (index.trie.lookup text).exact :=
    congrArg Hits.exact (Trie.lookup_mapHits rfl (fun _ => rfl) index.trie text)
  have hlooks : ∀ look, (∃ x ∈ Ranked.replace (index.table.merge kept gone) none gone kept
        (index.trie.lookup text).exact, (index.table.merge kept gone).look x = look) ↔
      ∃ x ∈ (index.trie.lookup text).exact,
        (index.table.merge kept gone).look (Ranked.moved gone kept x) = look :=
    Ranked.exists_look_replace (hindex.trie.lookup text).1.1 (Ranked.fits_none _)
  unfold Finds
  rw [hexact]
  constructor
  · rintro ⟨x, hx, hsame⟩
    obtain ⟨y, hy, hlook⟩ := (hlooks _).mp ⟨x, hx, rfl⟩
    refine ⟨y, hy, ?_⟩
    rw [← hindex.forest.urlOf_moved hmay y, ResultTable.urlOf_eq_of_look hlook]
    exact hsame
  · rintro ⟨y, hy, hsame⟩
    obtain ⟨x, hx, hlook⟩ := (hlooks _).mpr ⟨y, hy, rfl⟩
    refine ⟨x, hx, ?_⟩
    rw [← hindex.forest.urlOf_moved hmay y] at hsame
    exact (ResultTable.urlOf_eq_of_look hlook).trans hsame

/-- A merge leaves an entry findable exactly if it does not part it from what stands for it. -/
theorem finds_merged_iff_not_parts (hindex : index.Sound)
    (hmay : index.table.Mergeable kept gone) (hid : id < index.table.size)
    (hfinds : index.Finds text id) :
    (index.merged kept gone).Finds text id ↔ ¬ index.Parts kept gone text id := by
  have hforest := hindex.forest
  have hurl : ∀ x ∈ (index.trie.lookup text).exact,
      (index.table.LeadsTo x gone →
        (index.table.merge kept gone).urlOf x = index.table.urlOf kept) ∧
      (¬ index.table.LeadsTo x gone →
        (index.table.merge kept gone).urlOf x = index.table.urlOf x) := fun x hx =>
    ⟨hforest.urlOf_merge_of_leadsTo hmay (hindex.lt_of_mem_exact hx),
      hforest.urlOf_merge_of_not_leadsTo hmay (hindex.lt_of_mem_exact hx)⟩
  obtain ⟨found, hfound, hsame⟩ := hfinds
  rw [hindex.finds_merged_iff hmay, Parts]
  by_cases hleads : index.table.LeadsTo id gone
  · -- the entry leads to the kept one now, and so must some exact result
    rw [hforest.urlOf_merge_of_leadsTo hmay hid hleads]
    simp only [hleads, true_and, not_true_eq_false, false_and, or_false, not_forall, not_and,
      not_not, exists_prop]
    refine exists_congr fun x => and_congr_right fun hx => ?_
    by_cases hother : index.table.LeadsTo x gone
    · simp [hother, (hurl x hx).1 hother]
    · simp [hother, (hurl x hx).2 hother]
  · -- the entry leads where it did, and so must some exact result
    rw [hforest.urlOf_merge_of_not_leadsTo hmay hid hleads]
    simp only [hleads, false_and, not_false_eq_true, true_and, false_or, not_and, not_forall,
      exists_prop]
    constructor
    · rintro ⟨x, hx, hnow⟩ hother
      have hnot : ¬ index.table.LeadsTo x gone := fun hx' =>
        hother (hnow.symm.trans ((hurl x hx).1 hx'))
      exact ⟨x, hx, ((hurl x hx).2 hnot).symm.trans hnow, hnot⟩
    · intro hstays
      by_cases hother : index.table.urlOf id = index.table.urlOf kept
      · by_cases hfoundLeads : index.table.LeadsTo found gone
        · exact ⟨found, hfound, ((hurl found hfound).1 hfoundLeads).trans hother.symm⟩
        · exact ⟨found, hfound, ((hurl found hfound).2 hfoundLeads).trans hsame⟩
      · obtain ⟨x, hx, hbefore, hnot⟩ := hstays hother
        exact ⟨x, hx, ((hurl x hx).2 hnot).trans hbefore⟩

theorem exact_insertAll (hindex : index.Sound) (terms : List Term) (text : List UInt8)
    (hterms : ∀ term ∈ terms, term.id < index.table.size) :
    ((index.trie.insertAll index.table terms).lookup text).exact =
      Ranked.insertAll index.table none (Term.exactIds terms text)
        (index.trie.lookup text).exact := by
  have hwell : (index.trie.insertAll index.table terms).forest.WellFormed :=
    (hindex.trie.insertAll hterms).wellFormed
  rw [Trie.lookup_eq_place hwell, Trie.lookup_eq_place hindex.trie.wellFormed,
    Trie.hits_place_insertAll _ hindex.trie.wellFormed]

/-- What is found stays found when texts are added. -/
theorem finds_insertAll (hindex : index.Sound) {terms : List Term}
    (hterms : ∀ term ∈ terms, term.id < index.table.size) (hfinds : index.Finds text id) :
    { index with trie := index.trie.insertAll index.table terms }.Finds text id := by
  obtain ⟨x, hx, hsame⟩ := hfinds
  obtain ⟨y, hy, hlook⟩ := (Ranked.exists_look_insertAll (Term.exactIds terms text)
    (index.trie.lookup text).exact (index.table.look x)).mpr (Or.inr ⟨x, hx, rfl⟩)
  refine ⟨y, ?_, (ResultTable.urlOf_eq_of_look hlook).trans hsame⟩
  rwa [hindex.exact_insertAll terms text hterms]

theorem finds_grows (hindex : index.Sound) (hgrows : Grows index next)
    (hid : id < index.table.size) (hfinds : index.Finds text id) : next.Finds text id := by
  cases hgrows with
  | @row table row hrows _ =>
      obtain ⟨x, hx, hsame⟩ := hfinds
      have hurl : ∀ other < index.table.size, table.urlOf other = index.table.urlOf other :=
        fun other hother => congrArg Prod.snd (hindex.forest.look_of_rows hrows hother)
      refine ⟨x, hx, ?_⟩
      show table.urlOf x = table.urlOf id
      rw [hurl x (hindex.lt_of_mem_exact hx), hurl id hid, hsame]
  | @text term hkept =>
      have hterms : ∀ other ∈ [term], other.id < index.table.size :=
        List.forall_mem_singleton.mpr hkept.1
      exact hindex.finds_insertAll hterms hfinds

/-- An exact text finds its entry as soon as it was added. -/
theorem finds_added (hindex : index.Sound) {terms : List Term}
    (hterms : ∀ term ∈ terms, term.id < index.table.size) (hterm : term ∈ terms)
    (hexact : term.exact = true) :
    { index with trie := index.trie.insertAll index.table terms }.Finds term.text term.id := by
  have hid : term.id ∈ Term.exactIds terms term.text :=
    Term.mem_exactIds.mpr ⟨term, hterm, hexact, rfl, rfl⟩
  obtain ⟨x, hx, hlook⟩ := (Ranked.exists_look_insertAll (Term.exactIds terms term.text)
    (index.trie.lookup term.text).exact (index.table.look term.id)).mpr (Or.inl ⟨_, hid, rfl⟩)
  refine ⟨x, ?_, ResultTable.urlOf_eq_of_look hlook⟩
  rwa [hindex.exact_insertAll terms term.text hterms]

end Sound

/-! ## Histories -/

section

variable [Search]

/-- The operation adds the text to the tree. -/
inductive Operation.Adds (index : Index) : Operation → Term → Prop
  | add {entry : Entry} {id : Id} {terms : List Term} {next : Index} {term : Term}
      (hregister : index.register entry = .ok (id, terms, next)) (hterm : term ∈ terms) :
      Adds index (.add entry) term
  | addAlias {name : String} {target id : Id} {terms : List Term} {next : Index} {term : Term}
      (hregister : index.register (.aliasTo name target) = .ok (id, terms, next))
      (hterm : term ∈ terms) : Adds index (.addAlias name target) term
  | insert (text : String) (id : Id) (exact : Bool) :
      Adds index (.insert text id exact)
        { text := Text.utf8 (index.normalize text), id := index.table.canonicalId id, exact }

namespace Sound

theorem finds_of_register {entry : Entry} {new id : Id} {terms : List Term} (hindex : first.Sound)
    (hregister : first.register entry = .ok (new, terms, next)) (hterm : term ∈ terms)
    (hexact : term.exact = true) (hadd : first.add entry = .ok (id, mid)) :
    term.id < mid.table.size ∧ mid.Finds term.text term.id := by
  obtain ⟨⟨_, _, _⟩, hsame, hresult⟩ := except_bind_eq_ok.mp hadd
  obtain ⟨hnext, hterms⟩ := hindex.register hregister
  cases hregister.symm.trans hsame
  cases hresult
  exact ⟨hterms term hterm, hnext.finds_added hterms hterm hexact⟩

theorem finds_of_adds (hindex : first.Sound) (hadds : op.Adds first term)
    (hexact : term.exact = true) (happly : first.apply op = .ok mid) :
    term.id < mid.table.size ∧ mid.Finds term.text term.id := by
  cases hadds with
  | add hregister hterm =>
      obtain ⟨id, hadd⟩ := second_eq_ok.mp happly
      exact hindex.finds_of_register hregister hterm hexact hadd
  | addAlias hregister hterm =>
      obtain ⟨id, hadd⟩ := second_eq_ok.mp happly
      exact hindex.finds_of_register hregister hterm hexact hadd
  | insert text id exact =>
      obtain ⟨hid, rfl⟩ := eq_of_insert happly
      have hcanonical : first.table.canonicalId id < first.table.size :=
        hindex.forest.canonicalId_lt hid
      exact ⟨hcanonical, hindex.finds_added (List.forall_mem_singleton.mpr hcanonical)
        List.mem_cons_self hexact⟩

/-- No operation takes an entry out of the table. -/
theorem lt_size_apply (hindex : index.Sound) (happly : index.apply op = .ok next)
    (hid : id < index.table.size) : id < next.table.size := by
  refine hindex.apply_keeps (P := fun mid => id < mid.table.size) happly ?_ ?_ hid
  · intro index next _ hid hgrows
    exact hgrows.lt_size hid
  · intro kept gone _
    show id < (index.table.merge kept gone).size
    rwa [ResultTable.size_merge]

/-- An operation keeps an entry findable unless it is a merge that parts it. -/
theorem finds_or_parts_apply (hindex : index.Sound) (happly : index.apply op = .ok next)
    (hid : id < index.table.size) (hfinds : index.Finds text id) :
    next.Finds text id ∨ ∃ kept gone, op = .mergeDuplicate kept gone ∧
      index.Parts kept gone text id := by
  have houtcome := hindex.apply_outcome happly
  cases houtcome with
  | @merged kept gone hmay =>
      by_cases hparts : index.Parts kept gone text id
      · exact Or.inr ⟨kept, gone, rfl, hparts⟩
      · exact Or.inl ((hindex.finds_merged_iff_not_parts hmay hid hfinds).mpr hparts)
  | grown _ hgrown =>
      have hboth : id < next.table.size ∧ next.Finds text id := by
        refine hindex.grown_keeps
          (P := fun mid => id < mid.table.size ∧ mid.Finds text id) hgrown ?_ ⟨hid, hfinds⟩
        intro mid last hmid hboth hgrows
        exact ⟨hgrows.lt_size hboth.1, hmid.finds_grows hgrows hboth.1 hboth.2⟩
      exact Or.inl hboth.2

end Sound

theorem Run.lt_size (hbefore : Run Any (empty config) mid) (hafter : Run Any mid index)
    (hid : id < mid.table.size) : id < index.table.size := by
  induction hafter with
  | start => exact hid
  | next hrun _ happly ih =>
      exact (hbefore.append hrun).reachable.sound.lt_size_apply happly ih

/-- From when a text was added exactly for an entry, it finds the entry or another one with its URL,
until a merge parts the entry from all of these.  A merge of two entries with one URL does not, and
neither does a merge while the text finds the entry itself. -/
theorem Run.finds_or_parts (hbefore : Run Any (empty config) first)
    (hadds : op.Adds first term) (hexact : term.exact = true) (happly : first.apply op = .ok mid)
    (hafter : Run Any mid index) :
    (index.Finds term.text term.id ∨ ∃ before kept gone after, Run Any mid before ∧
      before.mergeDuplicate kept gone = .ok after ∧ before.Finds term.text term.id ∧
      before.Parts kept gone term.text term.id ∧ Run Any after index) ∧
      ∀ kept gone next, index.mergeDuplicate kept gone = .ok next →
        index.Finds term.text term.id →
          (next.Finds term.text term.id ↔ ¬ index.Parts kept gone term.text term.id) ∧
          (term.id ∈ (index.trie.lookup term.text).exact → next.Finds term.text term.id) ∧
          (index.table.urlOf gone = index.table.urlOf kept → next.Finds term.text term.id) := by
  obtain ⟨hid, hadded⟩ := hbefore.reachable.sound.finds_of_adds hadds hexact happly
  have hmid : Run Any (empty config) mid := hbefore.next trivial happly
  constructor
  · induction hafter with
    | start => exact Or.inl hadded
    | @next index last op hrun _ hstep ih =>
        have hindex : index.Sound := (hmid.append hrun).reachable.sound
        rcases ih with hfinds | ⟨before, kept, gone, after, hto, hmerge, hfinds, hparts, hfrom⟩
        · rcases hindex.finds_or_parts_apply hstep (hmid.lt_size hrun hid) hfinds with
            hfinds' | ⟨kept, gone, rfl, hparts⟩
          · exact Or.inl hfinds'
          · exact Or.inr ⟨index, kept, gone, last, hrun, mapError_eq_ok.mp hstep, hfinds, hparts,
              .start⟩
        · exact Or.inr ⟨before, kept, gone, after, hto, hmerge, hfinds, hparts,
            hfrom.next trivial hstep⟩
  · intro kept gone next hmerge hfinds
    obtain ⟨hmay, rfl⟩ := mergeDuplicate_eq_ok hmerge
    have hindex : index.Sound := (hmid.append hafter).reachable.sound
    have hlt : term.id < index.table.size := hmid.lt_size hafter hid
    have hiff := hindex.finds_merged_iff_not_parts hmay hlt hfinds
    exact ⟨hiff, fun hmem => hiff.mpr (not_parts_of_mem hmem),
      fun hurl => hiff.mpr (hindex.not_parts_of_urlOf hlt hurl hfinds)⟩

end

/-- Two pages with one URL. -/
def sharedPages : List Operation := [
  .add { name := "A", url := "a.html", kind := .page },
  .add { name := "x", url := "a.html", kind := .page }]

/-- An alias of the first page looks like the second one, which stands for it.  The second page may be
merged into the first one, or into another one. -/
theorem exists_sharedPages :
    ∃ first mid index joined parted, (Index.empty {}).applyAll sharedPages = .ok first ∧
      Operation.Adds first (.addAlias "x" 0) { text := Text.utf8 "x", id := 2, exact := true } ∧
      first.apply (.addAlias "x" 0) = .ok mid ∧
      mid.applyAll [.add { name := "B", url := "b.html", kind := .page }] = .ok index ∧
      (index.table.isMerged 2 = false ∧ index.Finds (Text.utf8 "x") 2 ∧
        2 ∉ (index.trie.lookup (Text.utf8 "x")).exact ∧
        index.table.urlOf 1 = index.table.urlOf 0) ∧
      index.mergeDuplicate 0 1 = .ok joined ∧ index.mergeDuplicate 3 1 = .ok parted ∧
      ¬ parted.Finds (Text.utf8 "x") 2 ∧ (parted.lookup "x").exact = [3] ∧
      parted.table.urlOf 2 = "a.html" := by
  have hfacts : (((Index.empty {}).applyAll sharedPages).toOption.bind fun first =>
      (first.register (.aliasTo "x" 0)).toOption.bind fun registered =>
        (first.apply (.addAlias "x" 0)).toOption.bind fun mid =>
          (mid.applyAll [.add { name := "B", url := "b.html", kind := .page }]).toOption.bind
            fun index => (index.mergeDuplicate 0 1).toOption.bind fun _ =>
              (index.mergeDuplicate 3 1).toOption.map fun parted =>
                (registered.2.1,
                  decide (index.table.isMerged 2 = false ∧ index.Finds (Text.utf8 "x") 2 ∧
                    2 ∉ (index.trie.lookup (Text.utf8 "x")).exact ∧
                    index.table.urlOf 1 = index.table.urlOf 0),
                  decide (parted.Finds (Text.utf8 "x") 2), (parted.lookup "x").exact,
                  parted.table.urlOf 2)) =
      some ([{ text := Text.utf8 "x", id := 2, exact := true }], true, false, [3], "a.html") := by
    decide +kernel
  obtain ⟨first, hfirst, hfacts⟩ := Option.bind_eq_some_iff.mp hfacts
  obtain ⟨⟨id, terms, registered⟩, hregister, hfacts⟩ := Option.bind_eq_some_iff.mp hfacts
  obtain ⟨mid, hmid, hfacts⟩ := Option.bind_eq_some_iff.mp hfacts
  obtain ⟨index, hindex, hfacts⟩ := Option.bind_eq_some_iff.mp hfacts
  obtain ⟨joined, hjoined, hfacts⟩ := Option.bind_eq_some_iff.mp hfacts
  obtain ⟨parted, hparted, hfacts⟩ := Option.map_eq_some_iff.mp hfacts
  rw [toOption_eq_some] at hfirst hregister hmid hindex hjoined hparted
  simp only [Prod.mk.injEq, decide_eq_true_eq, decide_eq_false_iff_not] at hfacts
  obtain ⟨hterms, hbefore, hlost, hexact, hurl⟩ := hfacts
  have hadds : Operation.Adds first (.addAlias "x" 0)
      { text := Text.utf8 "x", id := 2, exact := true } :=
    .addAlias hregister (by rw [hterms]; exact List.mem_cons_self)
  exact ⟨first, mid, index, joined, parted, hfirst, hadds, hmid, hindex, hbefore, hjoined, hparted,
    hlost, hexact, hurl⟩

/-- A merge of the two pages leaves the alias findable. -/
theorem Run.finds_or_parts_sharedPages :
    ∃ first mid index next, (Index.empty {}).applyAll sharedPages = .ok first ∧
      first.apply (.addAlias "x" 0) = .ok mid ∧
      mid.applyAll [.add { name := "B", url := "b.html", kind := .page }] = .ok index ∧
      index.Finds (Text.utf8 "x") 2 ∧ 2 ∉ (index.trie.lookup (Text.utf8 "x")).exact ∧
      index.mergeDuplicate 0 1 = .ok next ∧ next.Finds (Text.utf8 "x") 2 := by
  obtain ⟨first, mid, index, next, -, hfirst, hadds, hmid, hindex, hbefore, hnext, -⟩ :=
    exists_sharedPages
  obtain ⟨-, hfinds, hlacks, hurl⟩ := hbefore
  have hto : Run Any (Index.empty {}) first := .of_applyAll hfirst fun _ _ _ => trivial
  have hafter : Run Any mid index := .of_applyAll hindex fun _ _ _ => trivial
  obtain ⟨-, hmerges⟩ := hto.finds_or_parts hadds rfl hmid hafter
  obtain ⟨-, -, hstays⟩ := hmerges 0 1 next hnext hfinds
  exact ⟨first, mid, index, next, hfirst, hmid, hindex, hfinds, hlacks, hnext, hstays hurl⟩

/-- The page that stands for the alias is merged into one with another URL.  The alias was not merged
and leads where it did, and its name finds it no longer. -/
theorem not_finds_sharedPages :
    ∃ first mid index next, (Index.empty {}).applyAll sharedPages = .ok first ∧
      Operation.Adds first (.addAlias "x" 0) { text := Text.utf8 "x", id := 2, exact := true } ∧
      first.apply (.addAlias "x" 0) = .ok mid ∧
      mid.applyAll [.add { name := "B", url := "b.html", kind := .page }] = .ok index ∧
      index.table.isMerged 2 = false ∧ index.Finds (Text.utf8 "x") 2 ∧
      index.mergeDuplicate 3 1 = .ok next ∧ ¬ next.Finds (Text.utf8 "x") 2 ∧
      (next.lookup "x").exact = [3] ∧ next.table.urlOf 2 = "a.html" := by
  obtain ⟨first, mid, index, -, next, hfirst, hadds, hmid, hindex, hbefore, -, hnext, hlost⟩ :=
    exists_sharedPages
  obtain ⟨hmerged, hfinds, -, -⟩ := hbefore
  exact ⟨first, mid, index, next, hfirst, hadds, hmid, hindex, hmerged, hfinds, hnext, hlost⟩

end Index

end PrefixSearch
