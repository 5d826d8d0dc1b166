import PrefixSearch.Proofs.Capacity

/-!
# Results of a set look different

An insertion never puts a result beside one that looks the same, and entries that are added change
no look.  Only a merge does: the aliases of the duplicate get the URL of the kept entry.  The tree
is searched for the duplicate itself and not for its aliases, so a set may end up with an alias of
the duplicate beside a result that looks like it now.  This is the only way: as long as no merge
makes two results of a set look the same, all results of all sets look different.
-/

namespace PrefixSearch

/-! ## Looks after a merge -/

namespace Row

@[simp] theorem name_redirect (gone kept : Id) (row : Row) :
    (row.redirect gone kept).entry.name = row.entry.name := by
  unfold redirect
  split <;> rfl

@[simp] theorem url_redirect (gone kept : Id) (row : Row) :
    (row.redirect gone kept).entry.url = row.entry.url := by
  unfold redirect
  split <;> rfl

end Row

namespace ResultTable

variable {t u : ResultTable} {id kept gone : Id}

theorem get_of_size_le (hid : t.size ≤ id) : t.get id = default := by
  have hrow : t.rows[id]? = none := Array.getElem?_eq_none hid
  simp [get, get?, hrow]

theorem name_get_merge (t : ResultTable) (kept gone id : Id) :
    ((t.merge kept gone).get id).name = (t.get id).name := by
  rcases Nat.lt_or_ge id t.size with hid | hid
  · obtain ⟨row, hrow⟩ := exists_row hid
    have hmerged := rows_merge t kept gone id
    rw [hrow, Option.map_some] at hmerged
    rw [get_of_rows hmerged, get_of_rows hrow, Row.name_redirect]
    split <;> rfl
  · rw [get_of_size_le hid, get_of_size_le (by rwa [size_merge])]

theorem kind_get_merge (hid : id ≠ gone) :
    ((t.merge kept gone).get id).kind = (t.get id).kind := by
  rcases Nat.lt_or_ge id t.size with hlt | hge
  · obtain ⟨row, hrow⟩ := exists_row hlt
    have hmerged := rows_merge t kept gone id
    rw [hrow, Option.map_some, if_neg hid] at hmerged
    rw [get_of_rows hmerged, get_of_rows hrow, Row.kind_redirect]
  · rw [get_of_size_le hge, get_of_size_le (by rwa [size_merge])]

theorem url_get_merge (hid : id ≠ gone) :
    ((t.merge kept gone).get id).url = (t.get id).url := by
  rcases Nat.lt_or_ge id t.size with hlt | hge
  · obtain ⟨row, hrow⟩ := exists_row hlt
    have hmerged := rows_merge t kept gone id
    rw [hrow, Option.map_some, if_neg hid] at hmerged
    rw [get_of_rows hmerged, get_of_rows hrow, Row.url_redirect]
  · rw [get_of_size_le hge, get_of_size_le (by rwa [size_merge])]

namespace AliasForest

theorem look_of_rows {row : Row} (ht : t.AliasForest) (hrows : u.rows = (t.append row).rows)
    (hid : id < t.size) : u.look id = t.look id :=
  (ht.sameFor_of_rows hrows hid).2.symm

theorem look_merge_of_leadsTo (ht : t.AliasForest) (hmay : t.Mergeable kept gone)
    (hid : id < t.size) (hleads : t.LeadsTo id gone) :
    (t.merge kept gone).look id = ((t.get id).name, (t.get kept).url) := by
  rw [look, ht.resolve_merge_of_leadsTo hmay hid hleads, name_get_merge, url_get_merge hmay.ne]

theorem look_merge_of_not_leadsTo (ht : t.AliasForest) (hmay : t.Mergeable kept gone)
    (hid : id < t.size) (hnot : ¬ t.LeadsTo id gone) :
    (t.merge kept gone).look id = t.look id := by
  have hend : t.resolve id ≠ gone := by
    intro heq
    obtain ⟨steps, -, hchain, -⟩ := ht.chain_resolve hid
    exact hnot ⟨steps, heq ▸ hchain⟩
  rw [look, look, ht.resolve_merge_of_not_leadsTo hmay hid hnot, name_get_merge,
    url_get_merge hend]

/-- No entry leads to one that was added after it. -/
theorem not_leadsTo_size (ht : t.AliasForest) (row : Row) (hid : id < t.size) :
    ¬ (t.append row).LeadsTo id t.size := by
  have hinside : ∀ {steps x y}, (t.append row).Chain steps x y → x < t.size → y < t.size := by
    intro steps x y hchain
    induction hchain with
    | here => exact fun hx => hx
    | along hnext _ ih =>
        intro hx
        rw [next?_append row hx] at hnext
        exact ih (ht.next?_lt _ _ hnext)
  rintro ⟨steps, hchain⟩
  exact Nat.lt_irrefl _ (hinside hchain hid)

end AliasForest

end ResultTable

/-! ## Sets after a merge -/

namespace Ranked

open ResultTable

variable {t : ResultTable} {kept gone : Id} {set : List Id}

/-- The set has an alias of `gone` and another result that has the alias's name and the URL of
`kept`. -/
def Conflates (t : ResultTable) (kept gone : Id) (set : List Id) : Prop :=
  ∃ a ∈ set, ∃ b ∈ set, a ≠ gone ∧ t.LeadsTo a gone ∧ ¬ t.LeadsTo b gone ∧
    (t.get a).name = (t.get b).name ∧ (t.get (t.resolve b)).url = (t.get kept).url

theorem conflates_erase_iff : Conflates t kept gone (set.erase gone) ↔
    Conflates t kept gone set := by
  have hmem : ∀ x, x ≠ gone → (x ∈ set.erase gone ↔ x ∈ set) := fun x hx =>
    List.mem_erase_of_ne hx
  have hother : ∀ b, ¬ t.LeadsTo b gone → b ≠ gone := by
    rintro b hnot rfl
    exact hnot (LeadsTo.refl t b)
  constructor
  · rintro ⟨a, ha, b, hb, hrest⟩
    exact ⟨a, List.mem_of_mem_erase ha, b, List.mem_of_mem_erase hb, hrest⟩
  · rintro ⟨a, ha, b, hb, hne, hleads, hnot, hrest⟩
    exact ⟨a, (hmem a hne).mpr ha, b, (hmem b (hother b hnot)).mpr hb, hne, hleads, hnot, hrest⟩

theorem Apart.nodup (hset : Apart t set) : set.Nodup :=
  List.Nodup.of_map t.look hset

section Merge

variable (ht : t.AliasForest) (hmay : t.Mergeable kept gone) (hset : Apart t set)
  (hids : ∀ id ∈ set, id < t.size)
include ht hmay hset hids

/-- A set without the duplicate stays one of different looks unless the merge conflates two. -/
theorem apart_merge_iff (hgone : gone ∉ set) :
    Apart (t.merge kept gone) set ↔ ¬ Conflates t kept gone set := by
  have hleads : ∀ x ∈ set, t.LeadsTo x gone →
      (t.merge kept gone).look x = ((t.get x).name, (t.get kept).url) := fun x hx hleads =>
    ht.look_merge_of_leadsTo hmay (hids x hx) hleads
  have hmisses : ∀ x ∈ set, ¬ t.LeadsTo x gone → (t.merge kept gone).look x = t.look x :=
    fun x hx hnot => ht.look_merge_of_not_leadsTo hmay (hids x hx) hnot
  constructor
  · rintro hmerged ⟨a, ha, b, hb, -, haLeads, hbNot, hname, hurl⟩
    have hlook : (t.merge kept gone).look a = (t.merge kept gone).look b := by
      rw [hleads a ha haLeads, hmisses b hb hbNot, hname, ← hurl]
      rfl
    rw [hmerged.eq_of_look ha hb hlook] at haLeads
    exact hbNot haLeads
  · intro hnone
    -- of two results that look the same now, one leads to the duplicate and the other does not
    have hmixed : ∀ a ∈ set, ∀ b ∈ set, t.LeadsTo a gone → ¬ t.LeadsTo b gone →
        (t.merge kept gone).look a ≠ (t.merge kept gone).look b := by
      intro a ha b hb haLeads hbNot hlook
      rw [hleads a ha haLeads, hmisses b hb hbNot] at hlook
      obtain ⟨hname, hurl⟩ := Prod.mk.inj hlook
      have hne : a ≠ gone := fun heq => hgone (heq ▸ ha)
      exact hnone ⟨a, ha, b, hb, hne, haLeads, hbNot, hname, hurl.symm⟩
    refine hset.nodup.map_on fun a ha b hb hlook => ?_
    by_cases haLeads : t.LeadsTo a gone
    · by_cases hbLeads : t.LeadsTo b gone
      · rw [hleads a ha haLeads, hleads b hb hbLeads] at hlook
        refine hset.eq_of_look ha hb ?_
        rw [look, look, (Prod.mk.inj hlook).1, ht.resolve_eq_of_leadsTo (hids a ha) haLeads,
          ht.resolve_eq_of_leadsTo (hids b hb) hbLeads]
      · exact absurd hlook (hmixed a ha b hb haLeads hbLeads)
    · by_cases hbLeads : t.LeadsTo b gone
      · exact absurd hlook.symm (hmixed b hb a ha hbLeads haLeads)
      · rw [hmisses a ha haLeads, hmisses b hb hbLeads] at hlook
        exact hset.eq_of_look ha hb hlook

/-- Putting the kept entry into the place of the duplicate pushes nothing out, so what the merge
conflates stays in the set. -/
theorem apart_replace_iff [Search] {bound : Option Nat} (hfits : Fits bound set) :
    Apart (t.merge kept gone) (replace (t.merge kept gone) bound gone kept set) ↔
      ¬ Conflates t kept gone set := by
  unfold replace
  split
  · next hcontains =>
    have hgone : gone ∈ set := List.contains_iff_mem.mp hcontains
    have hroom : ∀ count, bound = some count → (set.erase gone).length < count := by
      intro count hcount
      have hle := hfits count hcount
      have hpos := List.length_pos_of_mem hgone
      rw [List.length_erase_of_mem hgone]
      omega
    rw [apart_insert_iff hroom, ← conflates_erase_iff]
    refine apart_merge_iff ht hmay (hset.sublist (List.erase_sublist.map t.look)) ?_ ?_
    · exact fun id hid => hids id (List.mem_of_mem_erase hid)
    · exact hset.nodup.not_mem_erase
  · next hcontains =>
    have hgone : gone ∉ set := fun hmem => hcontains (List.contains_iff_mem.mpr hmem)
    exact apart_merge_iff ht hmay hset hids hgone

end Merge

end Ranked

/-! ## Trees whose sets have different looks -/

namespace Hits

/-- The results of each set look different, and the completions are within the bound. -/
structure Distinct (table : ResultTable) (bound : Nat) (hits : Hits) : Prop where
  exact : Ranked.Apart table hits.exact
  completions : Ranked.Apart table hits.completions
  fits : Ranked.Fits (some bound) hits.completions

variable {table : ResultTable} {bound : Nat} {hits : Hits}

namespace Distinct

theorem nil (table : ResultTable) (bound : Nat) : Distinct table bound {} :=
  ⟨List.nodup_nil, List.nodup_nil, fun count _ => Nat.zero_le count⟩

theorem cut (hhits : hits.Distinct table bound) :
    Distinct table bound { completions := hits.completions } :=
  ⟨List.nodup_nil, hhits.completions, hhits.fits⟩

theorem sort (hhits : hits.Distinct table bound) : (hits.sort table).Distinct table bound where
  exact := (Ranked.apart_of_perm (Ranked.sort_perm table hits.exact)).mpr hhits.exact
  completions :=
    (Ranked.apart_of_perm (Ranked.sort_perm table hits.completions)).mpr hhits.completions
  fits count hcount :=
    Nat.le_trans (Nat.le_of_eq (Ranked.sort_perm table hits.completions).length_eq)
      (hhits.fits count hcount)

/-- The sets need not be changed where the looks of their members did not. -/
theorem congr {u : ResultTable} (hhits : hits.Distinct table bound)
    (hexact : ∀ id ∈ hits.exact, u.look id = table.look id)
    (hcompletions : ∀ id ∈ hits.completions, u.look id = table.look id) :
    hits.Distinct u bound where
  exact := by
    rw [Ranked.Apart, List.map_congr_left hexact]
    exact hhits.exact
  completions := by
    rw [Ranked.Apart, List.map_congr_left hcompletions]
    exact hhits.completions
  fits := hhits.fits

variable [Search]

theorem complete (hhits : hits.Distinct table bound) (id : Id) :
    (hits.complete table bound id).Distinct table bound :=
  ⟨hhits.exact, hhits.completions.insert id, Ranked.fits_insert id hhits.fits⟩

theorem finish (hhits : hits.Distinct table bound) (id : Id) (exact : Bool) :
    (hits.finish table bound id exact).Distinct table bound := by
  have hcomplete := hhits.complete id
  unfold Hits.finish
  split
  · exact ⟨hcomplete.exact.insert id, hcomplete.completions, hcomplete.fits⟩
  · exact hcomplete

end Distinct

variable [Search]

theorem kept_distinct (table : ResultTable) (bound : Nat) (term : Term) :
    Forest.Kept (Distinct table bound) (Hits.complete table bound term.id)
      (Trie.finishTerm table bound term) where
  empty := Distinct.nil table bound
  cut _ hhits := hhits.cut
  through _ hhits := hhits.complete term.id
  finish _ _ hhits hbelow := ⟨hhits.finish term.id term.exact, hbelow⟩

theorem absorbs_distinct (table : ResultTable) (bound : Nat) :
    Forest.Absorbs table bound (Distinct table bound) fun _ => True where
  empty := Distinct.nil table bound
  cut _ hhits := hhits.cut
  completeAll other _ _ hhits :=
    ⟨hhits.exact, hhits.completions.insertAll other.completions,
      Ranked.fits_insertAll other.completions hhits.fits⟩
  absorb other _ _ hhits :=
    ⟨hhits.exact.insertAll other.exact, hhits.completions.insertAll other.completions,
      Ranked.fits_insertAll other.completions hhits.fits⟩

end Hits

/-! ## Indexes -/

namespace Index

variable {index next : Index} {kept gone : Id}

/-- No set of any node has two results that look the same. -/
def Distinct (index : Index) : Prop :=
  ∀ v ∈ index.trie.visits, ∀ set ∈ [v.hits.exact, v.hits.completions],
    ∀ a ∈ set, ∀ b ∈ set, index.table.sameTarget a b = true → a = b

instance (index : Index) : Decidable index.Distinct :=
  inferInstanceAs (Decidable (∀ v ∈ index.trie.visits, ∀ set ∈ [v.hits.exact, v.hits.completions],
    ∀ a ∈ set, ∀ b ∈ set, index.table.sameTarget a b = true → a = b))

/-- Merging `gone` into `kept` makes two results of a set look the same. -/
def Conflates (index : Index) (kept gone : Id) : Prop :=
  ∃ v ∈ index.trie.visits, ∃ set ∈ [v.hits.exact, v.hits.completions],
    Ranked.Conflates index.table kept gone set

/-- In a sound index no set has an ID twice, so different IDs have different looks. -/
theorem Sound.distinct_iff (hindex : index.Sound) :
    index.Distinct ↔ ∀ v ∈ index.trie.visits,
      Ranked.Apart index.table v.hits.exact ∧ Ranked.Apart index.table v.hits.completions := by
  have hset : ∀ set : List Id, set.Nodup →
      ((∀ a ∈ set, ∀ b ∈ set, index.table.sameTarget a b = true → a = b) ↔
        Ranked.Apart index.table set) := by
    intro set hnodup
    simp only [ResultTable.sameTarget_iff]
    exact ⟨fun hinj => hnodup.map_on hinj, fun hapart a ha b hb => hapart.eq_of_look ha hb⟩
  have hnodes := Trie.all_iff_visits.mp hindex.trie.all
  refine forall₂_congr fun v hv => ?_
  rw [List.forall_mem_cons, List.forall_mem_singleton, hset _ (hnodes v hv).1.1,
    hset _ (hnodes v hv).2.1]

/-- The index is sound and its sets have different looks. -/
structure Tidy (index : Index) : Prop where
  sound : index.Sound
  nodes : index.trie.All (Hits.Distinct index.table index.trie.bound)

namespace Tidy

theorem distinct (hindex : index.Tidy) : index.Distinct :=
  hindex.sound.distinct_iff.mpr fun v hv =>
    have hhits := Trie.all_iff_visits.mp hindex.nodes v hv
    ⟨hhits.exact, hhits.completions⟩

theorem empty (config : Config) : (Index.empty config).Tidy :=
  ⟨Sound.empty config, Hits.Distinct.nil _ _, trivial⟩

/-- A longer table changes no look that the tree could have. -/
theorem withTable {table : ResultTable} {row : Row} (hindex : index.Tidy)
    (hrows : table.rows = (index.table.append row).rows)
    (hsound : { index with table }.Sound) : { index with table }.Tidy := by
  have hlook : ∀ id < index.table.size, table.look id = index.table.look id := fun id hid =>
    hindex.sound.forest.look_of_rows hrows hid
  refine ⟨hsound, (hindex.sound.trie.all.and hindex.nodes).imp ?_⟩
  rintro hits ⟨hwithin, hhits⟩
  exact hhits.congr (fun id hid => hlook id (hwithin.1.2 id hid))
    (fun id hid => hlook id (hwithin.2.2 id hid))

/-- Nothing leads to an entry that was only just added, so merging it conflates nothing. -/
theorem not_conflates_size (hindex : index.Tidy) (row : Row) (kept : Id) :
    ¬ { index with table := index.table.append row }.Conflates kept index.table.size := by
  rintro ⟨v, hv, set, hset, a, ha, -, -, -, hleads, -⟩
  have hwithin := Trie.all_iff_visits.mp hindex.sound.trie.all v hv
  have hids : ∀ id ∈ set, id < index.table.size := by
    rcases List.mem_pair.mp hset with rfl | rfl
    · exact hwithin.1.2
    · exact hwithin.2.2
  exact hindex.sound.forest.not_leadsTo_size row (hids a ha) hleads

theorem pushEntry {entry : Entry} {id : Id} (hindex : index.Tidy)
    (hpush : index.pushEntry entry = .ok (id, next)) : next.Tidy := by
  have hsound := hindex.sound.pushEntry hpush
  obtain ⟨_, -, hpush⟩ := except_bind_eq_ok.mp hpush
  obtain ⟨⟨new, table⟩, hrow, hresult⟩ := except_bind_eq_ok.mp hpush
  obtain ⟨-, -, rfl, rfl⟩ := ResultTable.push_eq_ok (mapError_eq_ok.mp hrow)
  cases hresult
  exact hindex.withTable rfl hsound

theorem sorted (hindex : index.Tidy) : index.sorted.Tidy :=
  ⟨⟨hindex.sound.trie.sort, hindex.sound.forest⟩, hindex.nodes.mapHits fun _ hhits => hhits.sort⟩

variable [Search]

theorem insertAll {terms : List Term} (hindex : index.Tidy)
    (hterms : ∀ term ∈ terms, term.id < index.table.size) :
    { index with trie := index.trie.insertAll index.table terms }.Tidy := by
  refine ⟨⟨hindex.sound.trie.insertAll hterms, hindex.sound.forest⟩, ?_⟩
  have hnodes := hindex.nodes
  rw [Trie.bound_insertAll]
  generalize index.trie = trie at hnodes ⊢
  clear hterms
  induction terms generalizing trie with
  | nil => exact hnodes
  | cons term terms ih =>
      have hnext := hnodes.insert (Hits.kept_distinct index.table trie.bound term)
      rw [← Trie.bound_insert index.table term] at hnext ⊢
      exact ih _ hnext

/-- A merge keeps all sets as they should be exactly if it conflates no two results. -/
theorem distinct_merged_iff (hindex : index.Tidy) (hmay : index.table.Mergeable kept gone) :
    (index.merged kept gone).Distinct ↔ ¬ index.Conflates kept gone := by
  have hwithin := Trie.all_iff_visits.mp hindex.sound.trie.all
  have hnodes := Trie.all_iff_visits.mp hindex.nodes
  have hsets : ∀ v ∈ index.trie.visits,
      (Ranked.Apart (index.merged kept gone).table (v.hits.replace
          (index.table.merge kept gone) index.trie.bound gone kept).exact ∧
        Ranked.Apart (index.merged kept gone).table (v.hits.replace
          (index.table.merge kept gone) index.trie.bound gone kept).completions) ↔
      ∀ set ∈ [v.hits.exact, v.hits.completions],
        ¬ Ranked.Conflates index.table kept gone set := by
    intro v hv
    rw [List.forall_mem_cons, List.forall_mem_singleton]
    exact and_congr
      (Ranked.apart_replace_iff hindex.sound.forest hmay (hnodes v hv).exact (hwithin v hv).1.2
        (Ranked.fits_none _))
      (Ranked.apart_replace_iff hindex.sound.forest hmay (hnodes v hv).completions
        (hwithin v hv).2.2 (hnodes v hv).fits)
  rw [(hindex.sound.merged hmay).distinct_iff, Conflates]
  simp only [not_exists, not_and]
  rw [← forall₂_congr hsets, merged, Trie.replace, Trie.visits_mapHits, List.forall_mem_map]

theorem merged (hindex : index.Tidy) (hmay : index.table.Mergeable kept gone)
    (hnone : ¬ index.Conflates kept gone) : (index.merged kept gone).Tidy := by
  have hsound := hindex.sound.merged hmay
  have hdistinct := hsound.distinct_iff.mp ((hindex.distinct_merged_iff hmay).mpr hnone)
  have hfits : (index.merged kept gone).trie.All fun hits =>
      Ranked.Fits (some index.trie.bound) hits.completions :=
    hindex.nodes.mapHits fun _ hhits => Ranked.fits_replace hhits.fits
  refine ⟨hsound, Trie.all_iff_visits.mpr fun v hv => ?_⟩
  obtain ⟨hexact, hcompletions⟩ := hdistinct v hv
  exact ⟨hexact, hcompletions, Trie.all_iff_visits.mp hfits v hv⟩

theorem register {entry : Entry} {id : Id} {terms : List Term} (hindex : index.Tidy)
    (hregister : index.register entry = .ok (id, terms, next)) : next.Tidy := by
  obtain ⟨hkind, htarget⟩ := register_pushes hregister
  have houtcome := register_outcome hregister
  cases houtcome with
  | fresh =>
      have hrows := tableWith_rows index entry
      exact hindex.withTable hrows (hindex.sound.withTable hrows hkind htarget)
  | duplicate _ hkept hkeptKind =>
      have happend := hindex.withTable rfl (hindex.sound.withTable rfl hkind htarget)
      exact happend.merged (Sound.mergeable_append entry hkept hkeptKind)
        (hindex.not_conflates_size { entry } id)

theorem add {entry : Entry} {id : Id} (hindex : index.Tidy)
    (hadd : index.add entry = .ok (id, next)) : next.Tidy := by
  obtain ⟨⟨new, terms, mid⟩, hregister, hresult⟩ := except_bind_eq_ok.mp hadd
  cases hresult
  exact (hindex.register hregister).insertAll (hindex.sound.register hregister).2

theorem insert {text : String} {id : Id} {exact : Bool} (hindex : index.Tidy)
    (hinsert : index.insert text id exact = .ok next) : next.Tidy := by
  have hsound := hindex.sound.insert hinsert
  obtain ⟨term, -, -, rfl⟩ := insert_eq_ok hinsert
  refine ⟨hsound, ?_⟩
  show Trie.All (Hits.Distinct index.table (index.trie.insert index.table term).bound) _
  rw [Trie.bound_insert]
  exact hindex.nodes.insert (Hits.kept_distinct index.table index.trie.bound term)

theorem mergeTrie {other : Trie} (hindex : index.Tidy)
    (hother : Trie.BuiltOver index.table.size other) : (index.mergeTrie other).Tidy :=
  ⟨hindex.sound.mergeTrie hother,
    hindex.nodes.merge (Trie.all_iff_visits.mpr fun _ _ => trivial)
      (Hits.absorbs_distinct index.table index.trie.bound)⟩

end Tidy

section

variable [Search]

/-- The indexes that operations lead to as long as no merge makes two results of a set look the
same. -/
inductive CarefullyReachable (config : Config) : Index → Prop
  | empty : CarefullyReachable config (Index.empty config)
  | pushEntry {index next : Index} {entry : Entry} {id : Id}
      (hreach : CarefullyReachable config index) (hpush : index.pushEntry entry = .ok (id, next)) :
      CarefullyReachable config next
  | add {index next : Index} {entry : Entry} {id : Id} (hreach : CarefullyReachable config index)
      (hadd : index.add entry = .ok (id, next)) : CarefullyReachable config next
  | addAlias {index next : Index} {name : String} {target id : Id}
      (hreach : CarefullyReachable config index)
      (hadd : index.addAlias name target = .ok (id, next)) : CarefullyReachable config next
  | insert {index next : Index} {text : String} {id : Id} {exact : Bool}
      (hreach : CarefullyReachable config index)
      (hinsert : index.insert text id exact = .ok next) : CarefullyReachable config next
  | mergeDuplicate {index next : Index} {kept gone : Id}
      (hreach : CarefullyReachable config index)
      (hmerge : index.mergeDuplicate kept gone = .ok next)
      (hnone : ¬ index.Conflates kept gone) : CarefullyReachable config next
  | mergeTrie {index : Index} {other : Trie} (hreach : CarefullyReachable config index)
      (hother : Trie.BuiltOver index.table.size other) :
      CarefullyReachable config (index.mergeTrie other)

theorem CarefullyReachable.reachable {config : Config}
    (hreach : CarefullyReachable config index) : Reachable config index := by
  induction hreach with
  | empty => exact .empty
  | pushEntry _ hpush ih => exact ih.pushEntry hpush
  | add _ hadd ih => exact ih.add hadd
  | addAlias _ hadd ih => exact ih.addAlias hadd
  | insert _ hinsert ih => exact ih.insert hinsert
  | mergeDuplicate _ hmerge _ ih => exact ih.mergeDuplicate hmerge
  | mergeTrie _ hother ih => exact ih.mergeTrie hother

theorem CarefullyReachable.tidy {config : Config} (hreach : CarefullyReachable config index) :
    index.Tidy := by
  induction hreach with
  | empty => exact Tidy.empty config
  | pushEntry _ hpush ih => exact ih.pushEntry hpush
  | add _ hadd ih => exact ih.add hadd
  | addAlias _ hadd ih => exact ih.add hadd
  | insert _ hinsert ih => exact ih.insert hinsert
  | mergeDuplicate _ hmerge hnone ih =>
      obtain ⟨hmay, rfl⟩ := mergeDuplicate_eq_ok hmerge
      exact ih.merged hmay hnone
  | mergeTrie _ hother ih => exact ih.mergeTrie hother

/-- As long as no merge makes two results of a set look the same, no set of any node has two results
that look the same, also once the index is frozen; and the next merge keeps it so exactly if there
is no set with an alias of the duplicate and another result that has the alias's name and the kept
entry's URL. -/
theorem CarefullyReachable.looks_differ {config : Config}
    (hreach : CarefullyReachable config index) :
    index.Distinct ∧
      (∀ frozen, index.finalize = .ok frozen → frozen.toIndex.Distinct) ∧
        ∀ kept gone next, index.mergeDuplicate kept gone = .ok next →
          (next.Distinct ↔ ¬ index.Conflates kept gone) := by
  have hindex := hreach.tidy
  refine ⟨hindex.distinct, ?_, ?_⟩
  · intro frozen hfinal
    rw [(finalize_eq_ok hfinal).1]
    exact hindex.sorted.distinct
  · intro kept gone next hmerge
    obtain ⟨hmay, rfl⟩ := mergeDuplicate_eq_ok hmerge
    exact hindex.distinct_merged_iff hmay

end

/-- Two pages, and an alias named `x` of each of the targets. -/
def aliasedPages (config : Config) (targets : List Id) : Except IndexError Index := do
  let (_, index) ← (Index.empty config).add { name := "A", url := "a.html", kind := .page }
  let (_, index) ← index.add { name := "B", url := "b.html", kind := .page }
  targets.foldlM (fun index target => return (← index.addAlias "x" target).2) index

theorem carefullyReachable_aliasedPages {config : Config} {targets : List Id}
    (hrun : aliasedPages config targets = .ok index) : CarefullyReachable config index := by
  obtain ⟨⟨_, first⟩, hfirst, hrun⟩ := except_bind_eq_ok.mp hrun
  obtain ⟨⟨_, second⟩, hsecond, hrun⟩ := except_bind_eq_ok.mp hrun
  refine foldlM_keeps hrun ?_ (.add (.add .empty hfirst) hsecond)
  intro index target next hreach hnext
  obtain ⟨⟨_, added⟩, hadd, hresult⟩ := except_bind_eq_ok.mp hnext
  cases hresult
  exact hreach.addAlias hadd

/-- Only the page that is merged into the other one has an alias. -/
theorem CarefullyReachable.looks_differ_aliasedPages :
    ∃ index next, aliasedPages {} [1] = .ok index ∧ index.mergeDuplicate 0 1 = .ok next ∧
      CarefullyReachable {} index ∧ ¬ index.Conflates 0 1 ∧
        next.lookup "x" = { exact := [2], completions := [2] } ∧ next.table.resolve 2 = 0 ∧
          next.Distinct := by
  have hfacts : ((aliasedPages {} [1]).toOption.bind
      (·.mergeDuplicate 0 1 |>.toOption)).map (fun next =>
        (next.lookup "x", next.table.resolve 2, decide next.Distinct)) =
      some ({ exact := [2], completions := [2] }, 0, true) := by
    decide +kernel
  obtain ⟨next, hnext, hfacts⟩ := Option.map_eq_some_iff.mp hfacts
  obtain ⟨index, hrun, hmerge⟩ := Option.bind_eq_some_iff.mp hnext
  rw [toOption_eq_some] at hrun hmerge
  simp only [Prod.mk.injEq, decide_eq_true_eq] at hfacts
  obtain ⟨hlookup, hresolve, hdistinct⟩ := hfacts
  have hreach := carefullyReachable_aliasedPages hrun
  have hnone := ((CarefullyReachable.looks_differ hreach).2.2 0 1 next hmerge).mp hdistinct
  exact ⟨index, next, hrun, hmerge, hreach, hnone, hlookup, hresolve, hdistinct⟩

/-- Both pages have an alias `x`, so merging one into the other makes the aliases look the same, but
the only set with both of them mentions neither page and is left as it is. -/
theorem not_distinct_aliasedPages :
    let config : Config := { indexScopeSuffixes := false }
    ∃ index next, aliasedPages config [0, 1] = .ok index ∧
      index.mergeDuplicate 0 1 = .ok next ∧ Reachable config next ∧
        next.lookup "x" = { exact := [2, 3], completions := [2, 3] } ∧
          next.table.sameTarget 2 3 = true ∧ ¬ next.Distinct := by
  intro config
  have hfacts : ((aliasedPages config [0, 1]).toOption.bind
      (·.mergeDuplicate 0 1 |>.toOption)).map (fun next =>
        (next.lookup "x", next.table.sameTarget 2 3, decide next.Distinct)) =
      some ({ exact := [2, 3], completions := [2, 3] }, true, false) := by
    decide +kernel
  obtain ⟨next, hnext, hfacts⟩ := Option.map_eq_some_iff.mp hfacts
  obtain ⟨index, hrun, hmerge⟩ := Option.bind_eq_some_iff.mp hnext
  rw [toOption_eq_some] at hrun hmerge
  simp only [Prod.mk.injEq, decide_eq_false_iff_not] at hfacts
  obtain ⟨hlookup, hsame, hdistinct⟩ := hfacts
  have hreach := (carefullyReachable_aliasedPages hrun).reachable
  exact ⟨index, next, hrun, hmerge, hreach.mergeDuplicate hmerge, hlookup, hsame, hdistinct⟩

end Index

end PrefixSearch
