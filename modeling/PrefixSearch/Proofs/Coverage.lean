import PrefixSearch.Proofs.DistinctResults
import PrefixSearch.Proofs.Histories
import PrefixSearch.Proofs.QueryResults
import PrefixSearch.Proofs.Trie.NodePaths

/-!
# Which completions are missing

A node shows every exact result at or below it among its completions, or another result that looks
like it, unless the bound is reached.  Adding texts keeps this: a set forgets a result only when it is
full.  A merge need not keep it.  Where the kept entry takes the place of the duplicate beside a result
that looks like it, a full set loses a member, and what was pushed out before does not come back.  And a
result that stood for others of the same look may look different afterwards.
-/

namespace PrefixSearch

/-! ## Sets after a result was replaced -/

namespace Ranked

variable {t : ResultTable} {set : List Id} {id old new : Id}

/-- What a result becomes when `old` is replaced by `new`. -/
def moved (old new id : Id) : Id :=
  if id = old then new else id

theorem length_erase_lt {bound : Option Nat} (hfits : Fits bound set) (hold : old ∈ set) :
    ∀ count, bound = some count → (set.erase old).length < count := by
  intro count hcount
  have hle := hfits count hcount
  have hpos := List.length_pos_of_mem hold
  rw [List.length_erase_of_mem hold]
  omega

variable [Search]

/-- With room for one more result, an insertion leaves the looks of the set and of the result. -/
theorem exists_look_insert {bound : Option Nat}
    (hroom : ∀ count, bound = some count → set.length < count) (look : String × String) :
    (∃ x ∈ insert t bound id set, t.look x = look) ↔
      t.look id = look ∨ ∃ x ∈ set, t.look x = look := by
  have hbest : ∀ other : List Id, other.length ≤ set.length →
      best bound (put t id other) = put t id other := by
    intro other hlength
    apply best_of_fits
    intro count hcount
    rw [length_put]
    exact Nat.lt_of_le_of_lt hlength (hroom count hcount)
  have houtcome := insert_outcome t bound id set
  generalize insert t bound id set = result at houtcome
  cases houtcome with
  | present hmem =>
      refine ⟨Or.inr, ?_⟩
      rintro (hid | hset)
      · exact ⟨id, hmem, hid⟩
      · exact hset
  | shadowed other hother hlook =>
      refine ⟨Or.inr, ?_⟩
      rintro (hid | hset)
      · exact ⟨other, hother, hlook.trans hid⟩
      · exact hset
  | placed =>
      rw [hbest set (Nat.le_refl _)]
      simp only [mem_put, exists_eq_or_imp]
  | replaced other hother hlook =>
      rw [hbest _ List.erase_sublist.length_le]
      simp only [mem_put, exists_eq_or_imp]
      -- the member that makes room looks like the new result
      constructor
      · rintro (hid | ⟨x, hx, hxLook⟩)
        · exact Or.inl hid
        · exact Or.inr ⟨x, List.mem_of_mem_erase hx, hxLook⟩
      · rintro (hid | ⟨x, hx, hxLook⟩)
        · exact Or.inl hid
        · by_cases hsame : x = other
          · exact Or.inl (hlook.symm.trans (hsame ▸ hxLook))
          · exact Or.inr ⟨x, (List.mem_erase_of_ne hsame).mpr hx, hxLook⟩

/-- With room for one more result, a set becomes longer unless it has a result of the same look. -/
theorem length_insert_eq_succ_iff {count : Nat} (hroom : set.length < count) :
    (insert t (some count) id set).length = set.length + 1 ↔ ∀ x ∈ set, t.look x ≠ t.look id := by
  have houtcome := insert_outcome t (some count) id set
  generalize insert t (some count) id set = result at houtcome
  cases houtcome with
  | present hmem =>
      refine ⟨fun hlength => absurd hlength (by omega), fun hfresh => absurd rfl (hfresh id hmem)⟩
  | shadowed other hother hlook =>
      exact ⟨fun hlength => absurd hlength (by omega), fun hfresh => absurd hlook (hfresh other hother)⟩
  | placed hfresh =>
      refine ⟨fun _ => hfresh, fun _ => ?_⟩
      rw [best_some, List.length_take, length_put]
      omega
  | replaced other hother hlook =>
      refine ⟨fun hlength => ?_, fun hfresh => absurd hlook (hfresh other hother)⟩
      have hpos := List.length_pos_of_mem hother
      rw [best_some, List.length_take, length_put, List.length_erase_of_mem hother] at hlength
      omega

theorem length_insert_le (t : ResultTable) (bound : Option Nat) (id : Id) (set : List Id) :
    (insert t bound id set).length ≤ set.length + 1 := by
  have hbest : ∀ other : List Id, other.length ≤ set.length →
      (best bound (put t id other)).length ≤ set.length + 1 := by
    intro other hlength
    have hle := (best_sublist bound (put t id other)).length_le
    rw [length_put] at hle
    omega
  have houtcome := insert_outcome t bound id set
  generalize insert t bound id set = result at houtcome
  cases houtcome with
  | present => exact Nat.le_succ _
  | shadowed => exact Nat.le_succ _
  | placed => exact hbest set (Nat.le_refl _)
  | replaced => exact hbest _ List.erase_sublist.length_le

/-- A replacement gives the set the looks of what its results become. -/
theorem exists_look_replace {bound : Option Nat} (hnodup : set.Nodup) (hfits : Fits bound set)
    (look : String × String) :
    (∃ x ∈ replace t bound old new set, t.look x = look) ↔
      ∃ x ∈ set, t.look (moved old new x) = look := by
  unfold replace
  split
  · next hcontains =>
    have hold : old ∈ set := List.contains_iff_mem.mp hcontains
    rw [exists_look_insert (length_erase_lt hfits hold)]
    constructor
    · rintro (hnew | ⟨x, hx, hlook⟩)
      · exact ⟨old, hold, by rwa [moved, if_pos rfl]⟩
      · obtain ⟨hne, hmem⟩ := hnodup.mem_erase_iff.mp hx
        exact ⟨x, hmem, by rwa [moved, if_neg hne]⟩
    · rintro ⟨x, hx, hlook⟩
      by_cases hsame : x = old
      · rw [moved, if_pos hsame] at hlook
        exact Or.inl hlook
      · rw [moved, if_neg hsame] at hlook
        exact Or.inr ⟨x, (List.mem_erase_of_ne hsame).mpr hx, hlook⟩
  · next hcontains =>
    refine exists_congr fun x => and_congr_right fun hx => ?_
    have hne : x ≠ old := by
      rintro rfl
      exact hcontains (List.contains_iff_mem.mpr hx)
    rw [moved, if_neg hne]

/-- After a replacement a set is full if it was, unless it had the old result and another one that
looks like the new one. -/
theorem length_replace_eq_iff {count : Nat} (hnodup : set.Nodup) (hlength : set.length ≤ count) :
    (replace t (some count) old new set).length = count ↔
      set.length = count ∧
        ¬ (old ∈ set ∧ ∃ other ∈ set, other ≠ old ∧ t.look other = t.look new) := by
  unfold replace
  split
  · next hcontains =>
    have hold : old ∈ set := List.contains_iff_mem.mp hcontains
    -- the set becomes one shorter, and as long as before only with a look that it has not
    have hsucc : (set.erase old).length + 1 = set.length := List.length_erase_add_one hold
    have hroom : (set.erase old).length < count := by omega
    have hle : (insert t (some count) new (set.erase old)).length ≤ (set.erase old).length + 1 :=
      length_insert_le t (some count) new (set.erase old)
    have hgrows : (insert t (some count) new (set.erase old)).length =
        (set.erase old).length + 1 ↔ ∀ x ∈ set.erase old, t.look x ≠ t.look new :=
      length_insert_eq_succ_iff hroom
    have hfresh : (∀ x ∈ set.erase old, t.look x ≠ t.look new) ↔
        ¬ (old ∈ set ∧ ∃ other ∈ set, other ≠ old ∧ t.look other = t.look new) := by
      simp only [hnodup.mem_erase_iff, hold, true_and, not_exists, not_and, Ne]
      tauto
    rw [← hfresh, ← hgrows]
    omega
  · next hcontains =>
    have hold : old ∉ set := fun hmem => hcontains (List.contains_iff_mem.mpr hmem)
    simp [hold]

/-- The merge of `gone` into `kept` leaves the set without a result that looks like what `id`
becomes, although it is not full: it was not, or it had the duplicate and another result that looks
like the kept entry. -/
def Forgets (t : ResultTable) (bound : Nat) (kept gone : Id) (set : List Id) (id : Id) : Prop :=
  (set.length = bound →
    gone ∈ set ∧ ∃ other ∈ set, other ≠ gone ∧ (t.merge kept gone).sameTarget other kept = true) ∧
  ∀ x ∈ set, (t.merge kept gone).sameTarget (moved gone kept x) (moved gone kept id) = false

instance (t : ResultTable) (bound : Nat) (kept gone : Id) (set : List Id) (id : Id) :
    Decidable (Forgets t bound kept gone set id) :=
  inferInstanceAs (Decidable (_ ∧ _))

theorem forgets_iff {bound : Nat} {kept gone : Id} (hnodup : set.Nodup)
    (hlength : set.length ≤ bound) : Forgets t bound kept gone set id ↔
      ¬ ((replace (t.merge kept gone) (some bound) gone kept set).length = bound ∨
        ∃ x ∈ replace (t.merge kept gone) (some bound) gone kept set,
          (t.merge kept gone).look x = (t.merge kept gone).look (moved gone kept id)) := by
  have hfits : Fits (some bound) set := by
    rintro count ⟨rfl⟩
    exact hlength
  rw [exists_look_replace hnodup hfits, length_replace_eq_iff hnodup hlength, Forgets, not_or,
    Classical.not_and_iff_not_or_not, not_not, ← imp_iff_not_or]
  simp only [ResultTable.sameTarget_iff, ← Bool.not_eq_true, not_and, not_exists]

end Ranked

/-! ## Trees that cover their exact results -/

namespace Hits

/-- No more completions than the bound. -/
def Bounded (bound : Nat) (hits : Hits) : Prop :=
  hits.completions.length ≤ bound

variable [Search]

theorem bounded_insertAll {table : ResultTable} {bound : Nat} {hits : Hits} (ids : List Id)
    (hhits : hits.Bounded bound) :
    (Ranked.insertAll table (some bound) ids hits.completions).length ≤ bound := by
  refine Ranked.fits_insertAll ids ?_ bound rfl
  rintro count ⟨rfl⟩
  exact hhits

theorem bounded_insert {table : ResultTable} {bound : Nat} {hits : Hits} (id : Id)
    (hhits : hits.Bounded bound) :
    (Ranked.insert table (some bound) id hits.completions).length ≤ bound :=
  bounded_insertAll [id] hhits

theorem kept_bounded (table : ResultTable) (bound : Nat) (term : Term) :
    Forest.Kept (Bounded bound) (Hits.complete table bound term.id)
      (Trie.finishTerm table bound term) where
  empty := Nat.zero_le bound
  cut _ hhits := hhits
  through _ hhits := bounded_insert term.id hhits
  finish hits below hhits hbelow := by
    refine ⟨?_, hbelow⟩
    show (hits.finish table bound term.id term.exact).completions.length ≤ bound
    rw [finish_completions]
    exact bounded_insert term.id hhits

theorem absorbs_bounded (table : ResultTable) (bound : Nat) :
    Forest.Absorbs table bound (Bounded bound) fun _ => True where
  empty := Nat.zero_le bound
  cut _ hhits := hhits
  completeAll other _ _ hhits := bounded_insertAll other.completions hhits
  absorb other _ _ hhits := bounded_insertAll other.completions hhits

end Hits

namespace Trie

variable {t : Trie} {table u : ResultTable}

/-- The completions of every place are full, or have a result that looks like any exact one that the
place leads to. -/
def Covers (t : Trie) (table : ResultTable) : Prop :=
  ∀ path lower id, path <+: lower → id ∈ (t.place lower).hits.exact →
    (t.place path).hits.completions.length = t.bound ∨
      ∃ other ∈ (t.place path).hits.completions, table.look other = table.look id

/-- It is enough to look at the nodes. -/
theorem covers_iff (ht : t.forest.WellFormed) : t.Covers table ↔
    ∀ node ∈ t.nodes, ∀ lower ∈ t.nodes, node.1 <+: lower.1 → ∀ id ∈ lower.2.exact,
      node.2.completions.length = t.bound ∨
        ∃ other ∈ node.2.completions, table.sameTarget other id = true := by
  simp only [ResultTable.sameTarget_iff]
  constructor
  · rintro hcovers ⟨path, hits⟩ hnode ⟨lower, lowerHits⟩ hlower hbelow id hid
    obtain ⟨-, rfl⟩ := (mem_nodes_iff ht).mp hnode
    obtain ⟨-, rfl⟩ := (mem_nodes_iff ht).mp hlower
    exact hcovers path lower id hbelow hid
  · intro hnodes path lower id hbelow hid
    obtain ⟨node, -, hbetween, hisNode, hsame⟩ := exists_isNode_between hbelow hid
    have hlower : (lower, (t.place lower).hits) ∈ t.nodes :=
      (mem_nodes_iff ht).mpr ⟨isNode_of_mem_exact hid, rfl⟩
    have hnode : (node, (t.place node).hits) ∈ t.nodes := (mem_nodes_iff ht).mpr ⟨hisNode, rfl⟩
    rw [← hsame]
    exact hnodes _ hnode _ hlower hbetween id hid

namespace Covers

/-- Looks matter only for the results in the tree. -/
theorem congr {size : Nat} (hcovers : t.Covers table) (ht : t.Sound size)
    (hlook : ∀ id < size, u.look id = table.look id) : t.Covers u := by
  intro path lower id hbelow hid
  refine (hcovers path lower id hbelow hid).imp_right ?_
  rintro ⟨other, hother, hsame⟩
  refine ⟨other, hother, ?_⟩
  rw [hlook other ((ht.place path).2.2 other hother), hlook id ((ht.place lower).1.2 id hid), hsame]

/-- A set that receives a text forgets no look unless it is full. -/
theorem insert [Search] (hcovers : t.Covers table) (ht : t.forest.WellFormed)
    (hbounded : t.All (Hits.Bounded t.bound)) (term : Term) :
    (t.insert table term).Covers table := by
  intro path lower id hbelow hid
  have hlength : (t.place path).hits.completions.length ≤ t.bound :=
    hbounded.place ht (Nat.zero_le _) (fun _ hhits => hhits) path
  -- what a set that is not full yet should show is all that came to its node so far
  have hbefore : (t.place path).hits.completions.length = t.bound ∨
      Ranked.Covers table (fun id => ∃ lower, path <+: lower ∧ id ∈ (t.place lower).hits.exact)
        (t.place path).hits.completions := by
    by_cases hfull : (t.place path).hits.completions.length = t.bound
    · exact Or.inl hfull
    · refine Or.inr ?_
      rintro id ⟨lower, hbelow, hid⟩
      exact (hcovers path lower id hbelow hid).resolve_left hfull
  have hafter := Ranked.full_or_covers_insertAll (Term.completionIds [term] path) hlength hbefore
  rw [hits_place_insert table ht] at hid
  rw [hits_place_insert table ht, bound_insert]
  refine hafter.imp_right fun hall => hall id ?_
  rcases Ranked.mem_of_mem_insertAll hid with hnew | hold
  · obtain ⟨_, hterm, -, htext, rfl⟩ := Term.mem_exactIds.mp hnew
    obtain rfl := List.mem_singleton.mp hterm
    exact Or.inr (Term.mem_completionIds.mpr ⟨_, hterm, htext ▸ hbelow, rfl⟩)
  · exact Or.inl ⟨lower, hbelow, hold⟩

end Covers

end Trie

/-! ## Indexes that cover their exact results -/

namespace Index

variable {config : Config} {index next last : Index} {op : Operation} {kept gone : Id}

/-- For every node and every exact result of that node or of one below it, the completions of the
node are full or have a result that looks like it, which may be the result itself. -/
def Covered (index : Index) : Prop :=
  ∀ node ∈ index.trie.nodes, ∀ lower ∈ index.trie.nodes, node.1 <+: lower.1 →
    ∀ id ∈ lower.2.exact, node.2.completions.length = index.trie.bound ∨
      ∃ other ∈ node.2.completions, index.table.sameTarget other id = true

instance (index : Index) : Decidable index.Covered :=
  inferInstanceAs (Decidable (∀ node ∈ index.trie.nodes, ∀ lower ∈ index.trie.nodes,
    node.1 <+: lower.1 → ∀ id ∈ lower.2.exact, node.2.completions.length = index.trie.bound ∨
      ∃ other ∈ node.2.completions, index.table.sameTarget other id = true))

theorem covered_empty (config : Config) : (Index.empty config).Covered := by
  rintro node - lower hlower - id hid
  rw [List.mem_singleton.mp hlower] at hid
  cases hid

/-- Merging `gone` into `kept` makes a node forget an exact result at or below it. -/
def Forgets (index : Index) (kept gone : Id) : Prop :=
  ∃ node ∈ index.trie.nodes, ∃ lower ∈ index.trie.nodes, node.1 <+: lower.1 ∧
    ∃ id ∈ lower.2.exact,
      Ranked.Forgets index.table index.trie.bound kept gone node.2.completions id

instance (index : Index) (kept gone : Id) : Decidable (index.Forgets kept gone) :=
  inferInstanceAs (Decidable (∃ node ∈ index.trie.nodes, ∃ lower ∈ index.trie.nodes,
    node.1 <+: lower.1 ∧ ∃ id ∈ lower.2.exact,
      Ranked.Forgets index.table index.trie.bound kept gone node.2.completions id))

/-- The index is sound and its completions are within the bound. -/
structure Bounded (index : Index) : Prop where
  sound : index.Sound
  nodes : index.trie.All (Hits.Bounded index.trie.bound)

namespace Bounded

theorem empty (config : Config) : (Index.empty config).Bounded :=
  ⟨Sound.empty config, Nat.zero_le _, trivial⟩

variable [Search]

theorem grows (hindex : index.Bounded) (hgrows : Grows index next) : next.Bounded := by
  refine ⟨hgrows.sound hindex.sound, ?_⟩
  cases hgrows with
  | row => exact hindex.nodes
  | @text term _ =>
      have hnodes := hindex.nodes.insert (Hits.kept_bounded index.table index.trie.bound term)
      rwa [← Trie.bound_insert index.table term] at hnodes

theorem merged (hindex : index.Bounded) (hmay : index.table.Mergeable kept gone) :
    (index.merged kept gone).Bounded := by
  refine ⟨hindex.sound.merged hmay, ?_⟩
  refine hindex.nodes.mapHits fun hits hhits => Ranked.fits_replace ?_ index.trie.bound rfl
  rintro count ⟨rfl⟩
  exact hhits

theorem apply (hindex : index.Bounded) (happly : index.apply op = .ok next) : next.Bounded :=
  hindex.sound.apply_keeps happly (fun _ _ _ hmid hstep => hmid.grows hstep)
    (fun _ _ hmay => hindex.merged hmay) hindex

theorem mergeTrie {other : Trie} (hindex : index.Bounded)
    (hother : Trie.BuiltOver index.table.size other) : (index.mergeTrie other).Bounded :=
  ⟨hindex.sound.mergeTrie hother,
    hindex.nodes.merge (Trie.all_iff_visits.mpr fun _ _ => trivial)
      (Hits.absorbs_bounded index.table index.trie.bound)⟩

/-- Growing covers what was covered. -/
theorem covered_grows (hindex : index.Bounded) (hgrows : Grows index next)
    (hcovered : index.Covered) : next.Covered := by
  have hwell := hindex.sound.trie.wellFormed
  have hcovers : index.trie.Covers index.table := (Trie.covers_iff hwell).mpr hcovered
  refine (Trie.covers_iff (hgrows.sound hindex.sound).trie.wellFormed).mp ?_
  cases hgrows with
  | row hrows _ =>
      exact hcovers.congr hindex.sound.trie
        fun _ hid => hindex.sound.forest.look_of_rows hrows hid
  | text _ => exact hcovers.insert hwell hindex.nodes _

theorem covered_grown (hindex : index.Bounded) (hgrown : Relation.ReflTransGen Grows index next)
    (hcovered : index.Covered) : next.Covered := by
  have hboth : next.Bounded ∧ next.Covered := by
    refine hindex.sound.grown_keeps (P := fun mid => mid.Bounded ∧ mid.Covered) hgrown ?_
      ⟨hindex, hcovered⟩
    intro _ _ _ hmid hstep
    exact ⟨hmid.1.grows hstep, hmid.1.covered_grows hstep hmid.2⟩
  exact hboth.2

/-- A merge leaves everything covered exactly if it makes no node forget a result. -/
theorem covered_merged_iff (hindex : index.Bounded) (kept gone : Id) :
    (index.merged kept gone).Covered ↔ ¬ index.Forgets kept gone := by
  have hnodes : (index.merged kept gone).trie.nodes = index.trie.nodes.map fun node =>
      (node.1, node.2.replace (index.table.merge kept gone) index.trie.bound gone kept) :=
    Trie.nodes_mapHits _ index.trie
  rw [Covered, hnodes, Forgets]
  simp only [List.forall_mem_map, not_exists, not_and]
  refine forall₂_congr fun node hnode => forall₂_congr fun lower hlower =>
    imp_congr_right fun _ => ?_
  obtain ⟨hexact, -⟩ := hindex.sound.trie.all.of_mem_nodes hlower
  obtain ⟨-, hcompletions⟩ := hindex.sound.trie.all.of_mem_nodes hnode
  have hlength : node.2.completions.length ≤ index.trie.bound := hindex.nodes.of_mem_nodes hnode
  simp only [Ranked.forgets_iff hcompletions.1 hlength, not_not, ResultTable.sameTarget_iff]
  -- the exact results after the merge look like what those before it became
  constructor
  · intro hafter id hid
    obtain ⟨found, hfound, hlook⟩ := (Ranked.exists_look_replace hexact.1 (Ranked.fits_none _) _).mpr
      ⟨id, hid, rfl⟩
    rw [← hlook]
    exact hafter found hfound
  · intro hbefore found hfound
    obtain ⟨id, hid, hlook⟩ := (Ranked.exists_look_replace hexact.1 (Ranked.fits_none _) _).mp
      ⟨found, hfound, rfl⟩
    have hcovered := hbefore id hid
    rw [hlook] at hcovered
    exact hcovered

end Bounded

/-! ## Histories -/

section

variable [Search]

/-- The bound of the tree never changes. -/
theorem Grows.bound_eq (hgrows : Grows index next) : next.trie.bound = index.trie.bound := by
  cases hgrows with
  | row => rfl
  | text => exact Trie.bound_insert _ _

theorem Sound.bound_apply (hindex : index.Sound) (happly : index.apply op = .ok next) :
    next.trie.bound = index.trie.bound :=
  hindex.apply_keeps (P := fun mid => mid.trie.bound = index.trie.bound) happly
    (fun _ _ _ hbound hstep => hstep.bound_eq.trans hbound) (fun _ _ _ => rfl) rfl

/-- The bound is that of the configuration. -/
theorem Reachable.bound_eq (hreach : Reachable config index) :
    index.trie.bound = config.maxCompletions :=
  hreach.keeps (P := fun index => index.trie.bound = config.maxCompletions) rfl
    (fun _ _ _ hsound hbound happly => (hsound.bound_apply happly).trans hbound)
    fun _ _ _ hbound _ => hbound

theorem Reachable.bounded (hreach : Reachable config index) : index.Bounded :=
  hreach.keeps (Bounded.empty config) (fun _ _ _ _ hindex happly => hindex.apply happly)
    fun _ _ _ hindex hother => hindex.mergeTrie hother

theorem Run.bound_eq {may : Index → Operation → Prop} (hrun : Run may (empty config) index) :
    index.trie.bound = config.maxCompletions :=
  hrun.reachable.bound_eq

theorem Run.bounded {may : Index → Operation → Prop} (hrun : Run may (empty config) index) :
    index.Bounded :=
  hrun.reachable.bounded

/-- Whatever was done, all is covered unless the last merge made a node forget a result. -/
theorem Run.covered_or_forgets (hrun : Run Any (empty config) index) :
    index.Covered ∨ ∃ before kept gone after, Run Any (empty config) before ∧
      before.mergeDuplicate kept gone = .ok after ∧ before.Forgets kept gone ∧
      Run NoMerge after index := by
  induction hrun with
  | start => exact Or.inl (covered_empty config)
  | @next index last op hrun _ happly ih =>
      have hindex : index.Bounded := hrun.bounded
      have houtcome := hindex.sound.apply_outcome happly
      cases houtcome with
      | @merged kept gone hmay =>
          by_cases hforgets : index.Forgets kept gone
          · have hmerge := mapError_eq_ok.mp happly
            exact Or.inr ⟨index, kept, gone, _, hrun, hmerge, hforgets, .start⟩
          · exact Or.inl ((hindex.covered_merged_iff kept gone).mpr hforgets)
      | grown hop hgrown =>
          rcases ih with hcovered | ⟨before, kept, gone, after, hbefore, hmerge, hforgets, hafter⟩
          · exact Or.inl (hindex.covered_grown hgrown hcovered)
          · exact Or.inr ⟨before, kept, gone, after, hbefore, hmerge, hforgets,
              hafter.next hop happly⟩

/-- Without merges of entries that were added before, all is covered. -/
theorem Run.covered_of_noMerge (hrun : Run NoMerge (empty config) index) : index.Covered := by
  induction hrun with
  | start => exact covered_empty config
  | @next index last op hrun hop happly ih =>
      have hindex : index.Bounded := hrun.bounded
      have houtcome := hindex.sound.apply_outcome happly
      cases houtcome with
      | merged => exact absurd rfl (hop _ _)
      | grown _ hgrown => exact hindex.covered_grown hgrown ih

/-- In every history the completions of a node are missing only from full sets, unless the last merge
of two entries made a node forget a result: and a merge leaves completions missing exactly if it
does. -/
theorem Run.completions_covered (hrun : Run Any (empty config) index) :
    index.trie.bound = config.maxCompletions ∧
      (Run NoMerge (empty config) index → index.Covered) ∧
      (index.Covered ∨ ∃ before kept gone after, Run Any (empty config) before ∧
        before.mergeDuplicate kept gone = .ok after ∧ before.Forgets kept gone ∧
        Run NoMerge after index) ∧
      ∀ kept gone next, index.mergeDuplicate kept gone = .ok next →
        (next.Covered ↔ ¬ index.Forgets kept gone) := by
  refine ⟨hrun.bound_eq, Run.covered_of_noMerge, hrun.covered_or_forgets, ?_⟩
  intro kept gone next hmerge
  obtain ⟨-, rfl⟩ := mergeDuplicate_eq_ok hmerge
  exact hrun.bounded.covered_merged_iff kept gone

end

/-- Three pages whose names begin alike. -/
def alikePages : List Operation := [
  .add { name := "xa", url := "xa.html", kind := .page },
  .add { name := "xb", url := "xb.html", kind := .page },
  .add { name := "xc", url := "xc.html", kind := .page }]

/-- A merge of the page that was pushed out forgets nothing. -/
theorem Run.completions_covered_alikePages :
    let config : Config := { maxCompletions := 2, indexScopeSuffixes := false }
    ∃ index next, (Index.empty config).applyAll alikePages = .ok index ∧ index.Covered ∧
      index.mergeDuplicate 0 2 = .ok next ∧ next.Covered ∧
      (next.lookup "x").completions = [0, 1] ∧ (next.lookup "xc").exact = [0] := by
  intro config
  have hfacts : (((Index.empty config).applyAll alikePages).toOption.bind fun index =>
      (index.mergeDuplicate 0 2).toOption.map fun next =>
        (decide (index.Forgets 0 2), (next.lookup "x").completions, (next.lookup "xc").exact)) =
          some (false, [0, 1], [0]) := by
    decide +kernel
  obtain ⟨index, hindex, hfacts⟩ := Option.bind_eq_some_iff.mp hfacts
  obtain ⟨next, hnext, hfacts⟩ := Option.map_eq_some_iff.mp hfacts
  rw [toOption_eq_some] at hindex hnext
  simp only [Prod.mk.injEq, decide_eq_false_iff_not] at hfacts
  obtain ⟨hforgets, hcompletions, hexact⟩ := hfacts
  have hnoMerge : Run NoMerge (Index.empty config) index := by
    refine .of_applyAll hindex fun _ op hop => ?_
    simp only [alikePages, List.mem_cons, List.not_mem_nil, or_false] at hop
    rcases hop with rfl | rfl | rfl <;> exact nofun
  obtain ⟨-, hcovered, -, hmerges⟩ := hnoMerge.any.completions_covered
  exact ⟨index, next, hindex, hcovered hnoMerge, hnext,
    (hmerges 0 2 next hnext).mpr hforgets, hcompletions, hexact⟩

/-- The bound lets only two of the pages into the completions.  When these are merged, there is room
for the third one, which does not come back. -/
theorem not_covered_alikePages :
    ∃ index next, (Index.empty { maxCompletions := 2, indexScopeSuffixes := false }).applyAll
        alikePages = .ok index ∧
      index.mergeDuplicate 0 1 = .ok next ∧ ¬ next.Covered ∧
      (next.lookup "x").completions = [0] ∧ (next.lookup "xc").exact = [2] := by
  have hfacts : (((Index.empty { maxCompletions := 2, indexScopeSuffixes := false }).applyAll
      alikePages).toOption.bind fun index =>
        (index.mergeDuplicate 0 1).toOption.map fun next =>
          (decide next.Covered, (next.lookup "x").completions, (next.lookup "xc").exact)) =
            some (false, [0], [2]) := by
    decide +kernel
  obtain ⟨index, hindex, hfacts⟩ := Option.bind_eq_some_iff.mp hfacts
  obtain ⟨next, hnext, hfacts⟩ := Option.map_eq_some_iff.mp hfacts
  rw [toOption_eq_some] at hindex hnext
  simp only [Prod.mk.injEq, decide_eq_false_iff_not] at hfacts
  obtain ⟨hcovered, hcompletions, hexact⟩ := hfacts
  exact ⟨index, next, hindex, hnext, hcovered, hcompletions, hexact⟩

end Index

end PrefixSearch
