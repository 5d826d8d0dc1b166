import PrefixSearch.Proofs.RankedSet
import PrefixSearch.Proofs.Trie.Merging

/-!
# Which results a tree holds

The sets of a tree hold no result twice and only results of the table, whatever the table says about
ranks and looks.  Every operation keeps this, also those that leave sets out of rank order.  So no
set has more members than there are results, and a file with IDs wide enough for the table has room
for the sizes of its sets.
-/

namespace PrefixSearch

/-- A set without repetitions, of results below `size`. -/
def IdSet (size : Nat) (set : List Id) : Prop :=
  set.Nodup ∧ ∀ id ∈ set, id < size

namespace IdSet

variable {size : Nat} {set : List Id}

theorem nil (size : Nat) : IdSet size [] :=
  ⟨List.nodup_nil, fun _ hid => absurd hid List.not_mem_nil⟩

theorem mono {more : Nat} (hset : IdSet size set) (hle : size ≤ more) : IdSet more set :=
  ⟨hset.1, fun id hid => Nat.lt_of_lt_of_le (hset.2 id hid) hle⟩

theorem of_perm {other : List Id} (hset : IdSet size set) (hperm : other.Perm set) :
    IdSet size other :=
  ⟨hperm.nodup_iff.mpr hset.1, fun id hid => hset.2 id (hperm.mem_iff.mp hid)⟩

theorem sublist {other : List Id} (hset : IdSet size set) (hsub : other.Sublist set) :
    IdSet size other :=
  ⟨hset.1.sublist hsub, fun id hid => hset.2 id (hsub.subset hid)⟩

theorem cons {id : Id} (hset : IdSet size set) (hnew : id ∉ set) (hid : id < size) :
    IdSet size (id :: set) := by
  refine ⟨List.nodup_cons.mpr ⟨hnew, hset.1⟩, ?_⟩
  intro x hx
  rcases List.mem_cons.mp hx with rfl | hx
  · exact hid
  · exact hset.2 x hx

/-- There are no more members than there are results. -/
theorem length_le (hset : IdSet size set) : set.length ≤ size := by
  have hsub : set ⊆ List.range size := fun id hid => List.mem_range.mpr (hset.2 id hid)
  have hlength := hset.1.length_le_of_subset hsub
  rwa [List.length_range] at hlength

theorem sort {table : ResultTable} (hset : IdSet size set) :
    IdSet size (Ranked.sort table set) :=
  hset.of_perm (Ranked.sort_perm table set)

variable [Search]

theorem insert {table : ResultTable} {bound : Option Nat} {id : Id} (hset : IdSet size set)
    (hid : id < size) : IdSet size (Ranked.insert table bound id set) := by
  have hput : ∀ list : List Id, IdSet size list → id ∉ list →
      IdSet size (Ranked.best bound (Ranked.put table id list)) := fun list hlist hnew =>
    ((hlist.cons hnew hid).of_perm (Ranked.put_perm table id list)).sublist
      (Ranked.best_sublist bound _)
  have houtcome := Ranked.insert_outcome table bound id set
  generalize Ranked.insert table bound id set = result at houtcome
  cases houtcome with
  | present => exact hset
  | shadowed => exact hset
  | placed hfresh => exact hput set hset fun hmem => hfresh id hmem rfl
  | replaced other hother hlook hlt hmem =>
      exact hput _ (hset.sublist List.erase_sublist) fun hid => hmem (List.mem_of_mem_erase hid)

theorem insertAll {table : ResultTable} {bound : Option Nat} {ids : List Id}
    (hset : IdSet size set) (hids : ∀ id ∈ ids, id < size) :
    IdSet size (Ranked.insertAll table bound ids set) := by
  induction ids generalizing set with
  | nil => exact hset
  | cons head ids ih =>
      obtain ⟨hhead, hrest⟩ := List.forall_mem_cons.mp hids
      exact ih (hset.insert hhead) hrest

theorem replace {table : ResultTable} {bound : Option Nat} {old new : Id} (hset : IdSet size set)
    (hnew : new < size) : IdSet size (Ranked.replace table bound old new set) := by
  unfold Ranked.replace
  split
  · exact (hset.sublist List.erase_sublist).insert hnew
  · exact hset

end IdSet

namespace Hits

/-- Both sets are sets of results below `size`. -/
def Within (size : Nat) (hits : Hits) : Prop :=
  IdSet size hits.exact ∧ IdSet size hits.completions

namespace Within

variable {size bound : Nat} {table : ResultTable} {hits other : Hits} {id : Id}

theorem nil (size : Nat) : Within size {} :=
  ⟨IdSet.nil size, IdSet.nil size⟩

theorem mono {more : Nat} (hhits : Within size hits) (hle : size ≤ more) : Within more hits :=
  ⟨hhits.1.mono hle, hhits.2.mono hle⟩

/-- A point inside an edge has the completions of the edge's lower end. -/
theorem cut (hhits : Within size hits) : Within size { completions := hits.completions } :=
  ⟨IdSet.nil size, hhits.2⟩

theorem sort (hhits : Within size hits) : Within size (hits.sort table) :=
  ⟨hhits.1.sort, hhits.2.sort⟩

variable [Search]

theorem complete (hhits : Within size hits) (hid : id < size) :
    Within size (hits.complete table bound id) :=
  ⟨hhits.1, hhits.2.insert hid⟩

theorem finish (exact : Bool) (hhits : Within size hits) (hid : id < size) :
    Within size (hits.finish table bound id exact) := by
  unfold Hits.finish
  split
  · exact ⟨hhits.1.insert hid, hhits.2.insert hid⟩
  · exact hhits.complete hid

theorem completeAll (hhits : Within size hits) (hother : Within size other) :
    Within size (Hits.completeAll table bound other hits) :=
  ⟨hhits.1, hhits.2.insertAll hother.2.2⟩

theorem absorb (hhits : Within size hits) (hother : Within size other) :
    Within size (Hits.absorb table bound other hits) :=
  ⟨hhits.1.insertAll hother.1.2, hhits.2.insertAll hother.2.2⟩

theorem replace {old new : Id} (hhits : Within size hits) (hnew : new < size) :
    Within size (hits.replace table bound old new) :=
  ⟨hhits.1.replace hnew, hhits.2.replace hnew⟩

end Within

end Hits

namespace Forest

/-- Every node finds something with the property. -/
def All (P : Hits → Prop) : Forest → Prop
  | .nil => True
  | .cons _ hits below next => P hits ∧ below.All P ∧ next.All P

variable {P : Hits → Prop} {through : Hits → Hits} {finish : Hits → Forest → Hits × Forest}

theorem All.imp {Q : Hits → Prop} {f : Forest} (hf : f.All P) (hPQ : ∀ hits, P hits → Q hits) :
    f.All Q := by
  induction f with
  | nil => trivial
  | cons label hits below next ihBelow ihNext =>
      exact ⟨hPQ hits hf.1, ihBelow hf.2.1, ihNext hf.2.2⟩

theorem All.mapHits {Q : Hits → Prop} {g : Hits → Hits} {f : Forest} (hf : f.All P)
    (hPQ : ∀ hits, P hits → Q (g hits)) : (f.mapHits g).All Q := by
  induction f with
  | nil => trivial
  | cons label hits below next ihBelow ihNext =>
      exact ⟨hPQ hits hf.1, ihBelow hf.2.1, ihNext hf.2.2⟩

theorem All.mapHits_eq_self {g : Hits → Hits} {f : Forest} (hf : f.All P)
    (hsame : ∀ hits, P hits → g hits = hits) : f.mapHits g = f := by
  induction f with
  | nil => rfl
  | cons label hits below next ihBelow ihNext =>
      rw [Forest.mapHits, hsame hits hf.1, ihBelow hf.2.1, ihNext hf.2.2]

/-- A property that the empty hits have, that does not ask for exact results, and that is kept at
the nodes that are passed and at the last one. -/
structure Kept (P : Hits → Prop) (through : Hits → Hits)
    (finish : Hits → Forest → Hits × Forest) : Prop where
  empty : P {}
  cut : ∀ hits, P hits → P { completions := hits.completions }
  through : ∀ hits, P hits → P (through hits)
  finish : ∀ hits below, P hits → below.All P →
    P (finish hits below).1 ∧ (finish hits below).2.All P

theorem All.graft {f : Forest} (hf : f.All P) (hkept : Kept P through finish)
    (text : List UInt8) : (f.graft through finish text).All P := by
  have hleaf := hkept.finish {} .nil hkept.empty trivial
  induction f generalizing text with
  | nil => exact ⟨hleaf.1, hleaf.2, trivial⟩
  | cons label hits below next ihBelow ihNext =>
      obtain ⟨hhits, hbelow, hnext⟩ := hf
      have hcut := hkept.cut hits hhits
      unfold Forest.graft
      dsimp only
      split
      · split
        · exact ⟨hleaf.1, hleaf.2, hhits, hbelow, hnext⟩
        · exact ⟨hhits, hbelow, ihNext hnext text⟩
      · split
        · split
          · have hend := hkept.finish hits below hhits hbelow
            exact ⟨hend.1, hend.2, hnext⟩
          · exact ⟨hkept.through hits hhits, ihBelow hbelow _, hnext⟩
        · split
          · have hend := hkept.finish _ (.cons (label.drop (sharedLength label text)) hits below .nil)
              hcut ⟨hhits, hbelow, trivial⟩
            exact ⟨hend.1, hend.2, hnext⟩
          · have hmiddle := hkept.through _ hcut
            split
            · exact ⟨hmiddle, ⟨hleaf.1, hleaf.2, hhits, hbelow, trivial⟩, hnext⟩
            · exact ⟨hmiddle, ⟨hhits, hbelow, hleaf.1, hleaf.2, trivial⟩, hnext⟩

/-- A text finds what some node finds, or a part of it. -/
theorem All.lookup {f : Forest} (hf : f.All P) (hempty : P {})
    (hcut : ∀ hits, P hits → P { completions := hits.completions }) (text : List UInt8) :
    P (f.lookup text) := by
  induction f generalizing text with
  | nil => exact hempty
  | cons label hits below next ihBelow ihNext =>
      obtain ⟨hhits, hbelow, hnext⟩ := hf
      unfold Forest.lookup
      dsimp only
      split
      · exact ihNext hnext text
      · split
        · split
          · exact hhits
          · exact ihBelow hbelow _
        · split
          · exact hcut hits hhits
          · exact hempty

@[simp] theorem firstBytes_mapHits (g : Hits → Hits) (f : Forest) :
    (f.mapHits g).firstBytes = f.firstBytes := by
  induction f with
  | nil => rfl
  | cons label hits below next _ ihNext => rw [mapHits, firstBytes, firstBytes, ihNext]

theorem size_mapHits (g : Hits → Hits) (f : Forest) : (f.mapHits g).size = f.size := by
  induction f with
  | nil => rfl
  | cons label hits below next ihBelow ihNext => simp only [mapHits, size, ihBelow, ihNext]

theorem mapHits_mapHits (g h : Hits → Hits) (f : Forest) :
    (f.mapHits g).mapHits h = f.mapHits fun hits => h (g hits) := by
  induction f with
  | nil => rfl
  | cons label hits below next ihBelow ihNext => simp only [mapHits, ihBelow, ihNext]

theorem visits_mapHits (g : Hits → Hits) (f : Forest) (depth : Nat) :
    (f.mapHits g).visits depth = (f.visits depth).map fun v => { v with hits := g v.hits } := by
  induction f generalizing depth with
  | nil => rfl
  | cons label hits below next ihBelow ihNext =>
      simp only [mapHits, visits, firstBytes_mapHits, ihBelow, ihNext, List.map_cons,
        List.map_append]

theorem wellFormed_mapHits {g : Hits → Hits} {f : Forest} (hf : f.WellFormed) :
    (f.mapHits g).WellFormed := by
  induction f with
  | nil => trivial
  | cons label hits below next ihBelow ihNext =>
      obtain ⟨hlabel, hfirst, hbelow, hnext⟩ := hf
      exact ⟨hlabel, by rwa [firstBytes_mapHits], ihBelow hbelow, ihNext hnext⟩

theorem all_iff_visits {f : Forest} (depth : Nat) :
    f.All P ↔ ∀ v ∈ f.visits depth, P v.hits := by
  induction f generalizing depth with
  | nil => simp [All, visits]
  | cons label hits below next ihBelow ihNext =>
      rw [All, visits, List.forall_mem_cons, List.forall_mem_append, ihBelow (depth + 1),
        ihNext depth]

variable [Search]

theorem kept_insert {table : ResultTable} {bound size : Nat} {term : Term}
    (hterm : term.id < size) :
    Kept (Hits.Within size) (Hits.complete table bound term.id)
      (Trie.finishTerm table bound term) where
  empty := Hits.Within.nil size
  cut _ hhits := hhits.cut
  through _ hhits := hhits.complete hterm
  finish _ _ hhits hbelow := ⟨hhits.finish term.exact hterm, hbelow⟩

/-- A property that hits keep when they absorb hits with another property. -/
structure Absorbs (table : ResultTable) (bound : Nat) (P Q : Hits → Prop) : Prop where
  empty : P {}
  cut : ∀ hits, P hits → P { completions := hits.completions }
  completeAll : ∀ other hits, Q other → P hits → P (Hits.completeAll table bound other hits)
  absorb : ∀ other hits, Q other → P hits → P (Hits.absorb table bound other hits)

theorem All.absorb {table : ResultTable} {bound : Nat} {Q : Hits → Prop} {other mine : Forest}
    (hother : other.All Q) (hmine : mine.All P) (habsorbs : Absorbs table bound P Q) :
    (other.absorb table bound mine).All P := by
  induction other generalizing mine with
  | nil => exact hmine
  | cons label hits below next ihBelow ihNext =>
      obtain ⟨hhits, hbelow, hnext⟩ := hother
      rw [absorb_cons]
      refine ihNext hnext (hmine.graft ?_ label)
      exact
        { empty := habsorbs.empty
          cut := habsorbs.cut
          through := fun found => habsorbs.completeAll hits found hhits
          finish := fun found _ hfound hforest =>
            ⟨habsorbs.absorb hits found hhits hfound, ihBelow hbelow hforest⟩ }

theorem absorbs_within (table : ResultTable) (bound size : Nat) :
    Absorbs table bound (Hits.Within size) (Hits.Within size) where
  empty := Hits.Within.nil size
  cut _ hhits := hhits.cut
  completeAll _ _ hother hhits := hhits.completeAll hother
  absorb _ _ hother hhits := hhits.absorb hother

end Forest

namespace Trie

variable {table : ResultTable} {P : Hits → Prop} {t other : Trie}

/-- Every node, the root included, finds something with the property. -/
def All (P : Hits → Prop) (t : Trie) : Prop :=
  P t.hits ∧ t.forest.All P

theorem all_iff_visits : t.All P ↔ ∀ v ∈ t.visits, P v.hits := by
  rw [visits, List.forall_mem_cons, All, Forest.all_iff_visits 1]

theorem size_mapHits (g : Hits → Hits) (t : Trie) : (t.mapHits g).size = t.size :=
  congrArg (· + 1) (Forest.size_mapHits g t.forest)

theorem mapHits_mapHits (g h : Hits → Hits) (t : Trie) :
    (t.mapHits g).mapHits h = t.mapHits fun hits => h (g hits) := by
  simp only [mapHits, Forest.mapHits_mapHits]

theorem visits_mapHits (g : Hits → Hits) (t : Trie) :
    (t.mapHits g).visits = t.visits.map fun v => { v with hits := g v.hits } := by
  simp only [visits, mapHits, Forest.visits_mapHits, Forest.firstBytes_mapHits, List.map_cons]

theorem All.imp {Q : Hits → Prop} (ht : t.All P) (hPQ : ∀ hits, P hits → Q hits) : t.All Q :=
  ⟨hPQ t.hits ht.1, ht.2.imp hPQ⟩

theorem All.and {Q : Hits → Prop} (hP : t.All P) (hQ : t.All Q) :
    t.All fun hits => P hits ∧ Q hits := by
  rw [all_iff_visits] at hP hQ ⊢
  exact fun v hv => ⟨hP v hv, hQ v hv⟩

theorem All.mapHits {Q : Hits → Prop} {g : Hits → Hits} (ht : t.All P)
    (hPQ : ∀ hits, P hits → Q (g hits)) : (t.mapHits g).All Q :=
  ⟨hPQ t.hits ht.1, ht.2.mapHits hPQ⟩

/-- A change that leaves every node as it is leaves the tree as it is. -/
theorem All.mapHits_eq_self {g : Hits → Hits} (ht : t.All P)
    (hsame : ∀ hits, P hits → g hits = hits) : t.mapHits g = t := by
  rw [Trie.mapHits, hsame t.hits ht.1, ht.2.mapHits_eq_self hsame]

theorem all_of_not_mentions {id : Id} (hid : ¬ t.mentions id) :
    t.All fun hits => id ∉ hits.exact ∧ id ∉ hits.completions := by
  rw [all_iff_visits]
  intro v hv
  have hnone : t.mentions id = false := Bool.eq_false_iff.mpr hid
  have hnot := List.any_eq_false.mp hnone v hv
  rwa [Bool.or_eq_true, List.contains_iff_mem, List.contains_iff_mem, not_or] at hnot

theorem All.lookup (ht : t.All P) (hempty : P {})
    (hcut : ∀ hits, P hits → P { completions := hits.completions }) (text : List UInt8) :
    P (t.lookup text) := by
  unfold Trie.lookup
  split
  · exact ht.1
  · exact ht.2.lookup hempty hcut text

/-- A place finds what some node finds, or a part of it. -/
theorem All.place (ht : t.All P) (hwell : t.forest.WellFormed) (hempty : P {})
    (hcut : ∀ hits, P hits → P { completions := hits.completions }) (path : List UInt8) :
    P (t.place path).hits := by
  rw [← lookup_eq_place hwell]
  exact ht.lookup hempty hcut path

theorem All.insert [Search] {term : Term} (ht : t.All P)
    (hkept : Forest.Kept P (Hits.complete table t.bound term.id) (finishTerm table t.bound term)) :
    (t.insert table term).All P := by
  unfold Trie.insert
  dsimp only
  split
  · exact ⟨(hkept.finish t.hits t.forest ht.1 ht.2).1, ht.2⟩
  · exact ⟨hkept.through t.hits ht.1, ht.2.graft hkept term.text⟩

theorem All.merge [Search] {Q : Hits → Prop} (ht : t.All P) (hother : other.All Q)
    (habsorbs : Forest.Absorbs table t.bound P Q) : (t.merge table other).All P :=
  ⟨habsorbs.absorb other.hits t.hits hother.1 ht.1, hother.2.absorb ht.2 habsorbs⟩

/-- The tree is well formed and holds sets of results below `size`. -/
structure Sound (size : Nat) (t : Trie) : Prop where
  wellFormed : t.forest.WellFormed
  hits : t.hits.Within size
  forest : t.forest.All (Hits.Within size)

namespace Sound

variable {size : Nat}

theorem all (ht : t.Sound size) : t.All (Hits.Within size) :=
  ⟨ht.hits, ht.forest⟩

theorem empty (size bound : Nat) : Sound size { bound } :=
  ⟨trivial, Hits.Within.nil size, trivial⟩

theorem mono {more : Nat} (ht : t.Sound size) (hle : size ≤ more) : t.Sound more :=
  ⟨ht.wellFormed, ht.hits.mono hle, ht.forest.imp fun _ hhits => hhits.mono hle⟩

theorem lookup (ht : t.Sound size) (text : List UInt8) : (t.lookup text).Within size :=
  ht.all.lookup (Hits.Within.nil size) (fun _ hhits => hhits.cut) text

theorem place (ht : t.Sound size) (path : List UInt8) : (t.place path).hits.Within size :=
  ht.all.place ht.wellFormed (Hits.Within.nil size) (fun _ hhits => hhits.cut) path

theorem mapHits {g : Hits → Hits} (ht : t.Sound size)
    (hkeep : ∀ hits, hits.Within size → (g hits).Within size) : (t.mapHits g).Sound size :=
  ⟨Forest.wellFormed_mapHits ht.wellFormed, hkeep t.hits ht.hits, ht.forest.mapHits hkeep⟩

theorem sort (ht : t.Sound size) : (t.sort table).Sound size :=
  ht.mapHits fun _ hhits => hhits.sort

variable [Search]

theorem insert {term : Term} (ht : t.Sound size) (hterm : term.id < size) :
    (t.insert table term).Sound size := by
  obtain ⟨hhits, hforest⟩ := ht.all.insert (Forest.kept_insert hterm)
  exact ⟨wellFormed_insert table ht.wellFormed term, hhits, hforest⟩

theorem insertAll {terms : List Term} (ht : t.Sound size)
    (hterms : ∀ term ∈ terms, term.id < size) : (t.insertAll table terms).Sound size := by
  induction terms generalizing t with
  | nil => exact ht
  | cons term terms ih =>
      obtain ⟨hterm, hrest⟩ := List.forall_mem_cons.mp hterms
      exact ih (ht.insert hterm) hrest

theorem merge (ht : t.Sound size) (hother : other.Sound size) :
    (t.merge table other).Sound size := by
  obtain ⟨hhits, hforest⟩ := ht.all.merge hother.all (Forest.absorbs_within table t.bound size)
  exact ⟨wellFormed_merge table ht.wellFormed hother.wellFormed, hhits, hforest⟩

theorem replace {old new : Id} (ht : t.Sound size) (hnew : new < size) :
    (t.replace table old new).Sound size :=
  ht.mapHits fun _ hhits => hhits.replace hnew

/-- A result that no node has need not be replaced by a known one. -/
theorem replace_of_not_mentions {old new : Id} (ht : t.Sound size) (hold : ¬ t.mentions old) :
    (t.replace table old new).Sound size := by
  have hsame : t.replace table old new = t := by
    refine (all_of_not_mentions hold).mapHits_eq_self ?_
    rintro hits ⟨hexact, hcompletions⟩
    simp [Hits.replace, Ranked.replace, hexact, hcompletions]
  rwa [hsame]

end Sound

variable [Search] {size : Nat}

/-- The trees that are built over tables of at most `size` results. -/
inductive BuiltOver (size : Nat) : Trie → Prop
  | empty (bound : Nat) : BuiltOver size { bound }
  | insert {t : Trie} {term : Term} (table : ResultTable) (hbuilt : BuiltOver size t)
      (hterm : term.id < size) : BuiltOver size (t.insert table term)
  | merge {t other : Trie} (table : ResultTable) (hbuilt : BuiltOver size t)
      (hother : BuiltOver size other) : BuiltOver size (t.merge table other)
  | replace {t : Trie} {old new : Id} (table : ResultTable) (hbuilt : BuiltOver size t)
      (hnew : new < size ∨ ¬ t.mentions old) : BuiltOver size (t.replace table old new)
  | sort {t : Trie} (table : ResultTable) (hbuilt : BuiltOver size t) :
      BuiltOver size (t.sort table)

theorem BuiltOver.insert? {next : Trie} {term : Term} (hbuilt : BuiltOver size t)
    (hsize : table.size ≤ size) (hinsert : t.insert? table term = some next) :
    BuiltOver size next := by
  obtain ⟨hid, ⟨⟩⟩ := Option.ite_none_right_eq_some.mp hinsert
  exact hbuilt.insert table (Nat.lt_of_lt_of_le hid hsize)

theorem BuiltOver.replace? {next : Trie} {old new : Id} (hbuilt : BuiltOver size t)
    (hsize : table.size ≤ size) (hreplace : t.replace? table old new = some next) :
    BuiltOver size next := by
  obtain ⟨hnew, ⟨⟩⟩ := Option.ite_none_right_eq_some.mp hreplace
  exact hbuilt.replace table (hnew.imp_left fun hlt => Nat.lt_of_lt_of_le hlt hsize)

theorem BuiltOver.ofTerms? {bound : Nat} {terms : List Term} (hsize : table.size ≤ size)
    (hterms : Trie.ofTerms? table bound terms = some t) : BuiltOver size t := by
  have hfrom : ∀ (terms : List Term) (first : Trie), BuiltOver size first →
      terms.foldlM (fun t term => t.insert? table term) first = some t → BuiltOver size t := by
    intro terms
    induction terms with
    | nil =>
        rintro first hfirst ⟨⟩
        exact hfirst
    | cons term terms ih =>
        intro first hfirst hall
        obtain ⟨next, hinsert, hrest⟩ := Option.bind_eq_some_iff.mp hall
        exact ih next (hfirst.insert? hsize hinsert) hrest
  exact hfrom terms _ (.empty bound) hterms

theorem BuiltOver.sound (hbuilt : BuiltOver size t) : t.Sound size := by
  induction hbuilt with
  | empty bound => exact Sound.empty size bound
  | insert _ _ hterm ih => exact ih.insert hterm
  | merge _ _ _ ih ihOther => exact ih.merge ihOther
  | replace _ _ hnew ih =>
      -- a replacement by any other ID finds nothing to replace
      rcases hnew with hnew | hold
      · exact ih.replace hnew
      · exact ih.replace_of_not_mentions hold
  | sort _ _ ih => exact ih.sort

end Trie

end PrefixSearch
