import Mathlib.Data.Finset.Card
import PrefixSearch.Proofs.Runs
import PrefixSearch.Proofs.TableGrowth

/-!
# The forest of aliases

A merge redirects aliases, so an alias may lead to a later row as well as to an earlier one, and no
order of the rows shows that a chain of aliases ends.  What every operation keeps is that each chain
has an end: a merge appends one step to the chains that pass the duplicate, or leaves one out, and
changes no other chain.  A chain that has an end passes no row twice, so it is shorter than the
table, and the bound on the steps that are followed never cuts one off.
-/

namespace PrefixSearch

namespace ResultTable

variable {t u : ResultTable} {id other last kept gone : Id} {steps : Nat}

/-! ## Chains -/

/-- Following `steps` aliases from one ID leads to another. -/
inductive Chain (t : ResultTable) : Nat → Id → Id → Prop
  | here (id : Id) : Chain t 0 id id
  | along {steps : Nat} {id target other : Id} (hnext : t.next? id = some target)
      (hrest : Chain t steps target other) : Chain t (steps + 1) id other

/-- The chain of aliases that begins at the one ID passes the other or ends at it. -/
def LeadsTo (t : ResultTable) (id other : Id) : Prop :=
  ∃ steps, t.Chain steps id other

theorem LeadsTo.refl (t : ResultTable) (id : Id) : t.LeadsTo id id :=
  ⟨0, .here id⟩

/-- The ID is where a chain ends. -/
def IsEnd (t : ResultTable) (id : Id) : Prop :=
  t.next? id = none

theorem isEnd_of_ne_redirect (hkind : (t.get id).kind ≠ .redirect) : t.IsEnd id :=
  if_neg hkind

/-- A chain has one length and one end. -/
theorem Chain.unique {more : Nat} (hchain : t.Chain steps id last) (hlast : t.IsEnd last)
    (hother : t.Chain more id other) (hend : t.IsEnd other) : steps = more ∧ last = other := by
  induction hchain generalizing more with
  | here id =>
      cases hother with
      | here => exact ⟨rfl, rfl⟩
      | along hnext _ =>
          rw [IsEnd, hnext] at hlast
          cases hlast
  | along hnext _ ih =>
      cases hother with
      | here =>
          rw [IsEnd, hnext] at hend
          cases hend
      | along hnext' hrest' =>
          obtain rfl := Option.some.inj (hnext.symm.trans hnext')
          obtain ⟨rfl, rfl⟩ := ih hlast hrest'
          exact ⟨rfl, rfl⟩

/-- What is left of a chain after some of its steps. -/
theorem Chain.rest (hchain : t.Chain steps id last) {done : Nat} (hdone : done ≤ steps) :
    t.Chain (steps - done) (t.follow done id) last := by
  induction hchain generalizing done with
  | here id =>
      obtain rfl : done = 0 := Nat.le_zero.mp hdone
      exact .here id
  | along hnext hrest ih =>
      cases done with
      | zero => exact .along hnext hrest
      | succ done =>
          rw [follow, hnext, Nat.add_sub_add_right]
          exact ih (Nat.le_of_succ_le_succ hdone)

/-- Following aliases for long enough leads to the end of the chain. -/
theorem follow_of_chain (hchain : t.Chain steps id last) (hlast : t.IsEnd last) {fuel : Nat}
    (hfuel : steps ≤ fuel) : t.follow fuel id = last := by
  induction hchain generalizing fuel with
  | here id =>
      cases fuel with
      | zero => rfl
      | succ fuel => rw [follow, hlast]
  | along hnext _ ih =>
      cases fuel with
      | zero => exact absurd hfuel (Nat.not_succ_le_zero _)
      | succ fuel =>
          rw [follow, hnext]
          exact ih hlast (Nat.le_of_succ_le_succ hfuel)

theorem follow_lt (htarget : ∀ id target, t.next? id = some target → target < t.size)
    (hid : id < t.size) (steps : Nat) : t.follow steps id < t.size := by
  induction steps generalizing id with
  | zero => exact hid
  | succ steps ih =>
      rw [follow]
      cases hnext : t.next? id with
      | none => exact hid
      | some target => exact ih (htarget id target hnext)

/-- A chain that ends passes no row twice, so it has fewer steps than there are rows. -/
theorem Chain.length_lt (htarget : ∀ id target, t.next? id = some target → target < t.size)
    (hchain : t.Chain steps id last) (hlast : t.IsEnd last) (hid : id < t.size) :
    steps < t.size := by
  -- the rest of the chain has another length after every step, so it begins elsewhere
  have hinj : ∀ a ≤ steps, ∀ b ≤ steps, t.follow a id = t.follow b id → a = b := by
    intro a ha b hb hsame
    have hrest := hchain.rest ha
    rw [hsame] at hrest
    obtain ⟨hlengths, -⟩ := hrest.unique hlast (hchain.rest hb) hlast
    omega
  have hcard : (Finset.range (steps + 1)).card ≤ (Finset.range t.size).card := by
    refine Finset.card_le_card_of_injOn (fun done => t.follow done id) ?_ ?_
    · intro done _
      exact Finset.mem_coe.mpr (Finset.mem_range.mpr (follow_lt htarget hid done))
    · intro a ha b hb hsame
      rw [Finset.mem_coe, Finset.mem_range] at ha hb
      exact hinj a (Nat.le_of_lt_succ ha) b (Nat.le_of_lt_succ hb) hsame
  rwa [Finset.card_range, Finset.card_range] at hcard

/-- Whether a chain passes an ID can be seen at its first step. -/
theorem leadsTo_iff {target : Id} (hnext : t.next? id = some target) :
    t.LeadsTo id other ↔ id = other ∨ t.LeadsTo target other := by
  constructor
  · rintro ⟨_, hchain⟩
    cases hchain with
    | here => exact Or.inl rfl
    | along hnext' hrest =>
        obtain rfl := Option.some.inj (hnext.symm.trans hnext')
        exact Or.inr ⟨_, hrest⟩
  · rintro (rfl | ⟨steps, hrest⟩)
    · exact LeadsTo.refl t id
    · exact ⟨steps + 1, .along hnext hrest⟩

theorem leadsTo_iff_of_isEnd (hid : t.IsEnd id) : t.LeadsTo id other ↔ id = other := by
  constructor
  · rintro ⟨_, hchain⟩
    cases hchain with
    | here => rfl
    | along hnext _ =>
        rw [IsEnd, hnext] at hid
        cases hid
  · rintro rfl
    exact LeadsTo.refl t id

/-! ## The forest -/

/-- Every alias has a target in the table, every chain of aliases has an end, and a duplicate is an
alias of the entry it was merged into, which is none. -/
structure AliasForest (t : ResultTable) : Prop where
  kind_iff : ∀ (id : Id) (row : Row), t.rows[id]? = some row →
    (row.entry.kind = .redirect ↔ row.entry.target.isSome = true)
  target_lt : ∀ (id : Id) (row : Row), t.rows[id]? = some row →
    ∀ target, row.entry.target = some target → target < t.size
  ends : ∀ id < t.size, ∃ steps last, t.Chain steps id last ∧ t.IsEnd last
  merged : ∀ (id : Id) (row : Row), t.rows[id]? = some row →
    ∀ kept, row.mergedInto = some kept → row.entry.target = some kept ∧ t.IsEnd kept

theorem next?_of_size_le (hid : t.size ≤ id) : t.next? id = none := by
  have hrow : t.rows[id]? = none := Array.getElem?_eq_none hid
  have hget : t.get id = default := by simp [get, get?, hrow]
  rw [next?, hget]
  rfl

theorem lt_size_of_isMerged (hmerged : t.isMerged id = true) : id < t.size := by
  by_contra hid
  have hrow : t.rows[id]? = none := Array.getElem?_eq_none (Nat.le_of_not_lt hid)
  rw [isMerged, hrow] at hmerged
  cases hmerged

theorem canonicalId_of_isMerged_false (hmerged : t.isMerged id = false) :
    t.canonicalId id = id := by
  rw [isMerged, Option.isSome_eq_false_iff, Option.isNone_iff_eq_none] at hmerged
  rw [canonicalId, hmerged, Option.getD_none]

namespace AliasForest

variable {row : Row}

theorem next?_of_rows (ht : t.AliasForest) (hrow : t.rows[id]? = some row) :
    t.next? id = row.entry.target := by
  rw [next?, get_of_rows hrow]
  split
  · rfl
  · next hkind =>
    rw [ht.kind_iff id row hrow] at hkind
    exact (Option.not_isSome_iff_eq_none.mp hkind).symm

theorem next?_lt (ht : t.AliasForest) (id target : Id) (hnext : t.next? id = some target) :
    target < t.size := by
  rcases Nat.lt_or_ge id t.size with hid | hid
  · obtain ⟨row, hrow⟩ := exists_row hid
    rw [ht.next?_of_rows hrow] at hnext
    exact ht.target_lt id row hrow target hnext
  · rw [next?_of_size_le hid] at hnext
    cases hnext

/-- The end of a chain is an entry that is no alias. -/
theorem kind_of_isEnd (ht : t.AliasForest) (hid : id < t.size) (hend : t.IsEnd id) :
    (t.get id).kind ≠ .redirect := by
  obtain ⟨row, hrow⟩ := exists_row hid
  rw [IsEnd, ht.next?_of_rows hrow] at hend
  rw [get_of_rows hrow, Ne, ht.kind_iff id row hrow, hend]
  exact Bool.false_ne_true

theorem chain_lt (ht : t.AliasForest) (hchain : t.Chain steps id last) (hid : id < t.size) :
    last < t.size := by
  induction hchain with
  | here => exact hid
  | along hnext _ ih => exact ih (ht.next?_lt _ _ hnext)

theorem resolve_of_chain (ht : t.AliasForest) (hid : id < t.size)
    (hchain : t.Chain steps id last) (hlast : t.IsEnd last) : t.resolve id = last := by
  have hlength := hchain.length_lt ht.next?_lt hlast hid
  exact follow_of_chain hchain hlast (Nat.le_succ_of_le (Nat.le_of_lt hlength))

/-- Resolving follows the whole chain. -/
theorem chain_resolve (ht : t.AliasForest) (hid : id < t.size) :
    ∃ steps < t.size, t.Chain steps id (t.resolve id) ∧ t.IsEnd (t.resolve id) := by
  obtain ⟨steps, last, hchain, hlast⟩ := ht.ends id hid
  rw [ht.resolve_of_chain hid hchain hlast]
  exact ⟨steps, hchain.length_lt ht.next?_lt hlast hid, hchain, hlast⟩

theorem resolve_lt (ht : t.AliasForest) (hid : id < t.size) : t.resolve id < t.size := by
  obtain ⟨_, -, hchain, -⟩ := ht.chain_resolve hid
  exact ht.chain_lt hchain hid

/-- What a chain passes resolves to its end as well. -/
theorem resolve_eq_of_leadsTo (ht : t.AliasForest) (hid : id < t.size)
    (hleads : t.LeadsTo id other) : t.resolve id = t.resolve other := by
  obtain ⟨steps, hchain⟩ := hleads
  induction hchain with
  | here => rfl
  | along hnext _ ih =>
      have htarget := ht.next?_lt _ _ hnext
      obtain ⟨_, -, hrest, hlast⟩ := ht.chain_resolve htarget
      rw [ht.resolve_of_chain hid (.along hnext hrest) hlast]
      exact ih htarget

/-- A duplicate leads to the entry it was merged into, and only it. -/
theorem next?_of_isMerged (ht : t.AliasForest) (hmerged : t.isMerged id = true) :
    t.next? id = some (t.canonicalId id) ∧ t.IsEnd (t.canonicalId id) := by
  obtain ⟨row, hrow⟩ := exists_row (lt_size_of_isMerged hmerged)
  rw [isMerged_of_rows hrow] at hmerged
  obtain ⟨kept, hkept⟩ := Option.isSome_iff_exists.mp hmerged
  obtain ⟨htarget, hend⟩ := ht.merged id row hrow kept hkept
  rw [ht.next?_of_rows hrow, canonicalId_of_rows hrow, hkept]
  exact ⟨htarget, hend⟩

theorem canonicalId_lt (ht : t.AliasForest) (hid : id < t.size) : t.canonicalId id < t.size := by
  cases hmerged : t.isMerged id with
  | false => rwa [canonicalId_of_isMerged_false hmerged]
  | true => exact ht.next?_lt id _ (ht.next?_of_isMerged hmerged).1

/-- The end of a chain was not merged. -/
theorem isMerged_of_isEnd (ht : t.AliasForest) (hend : t.IsEnd id) : t.isMerged id = false := by
  by_contra hmerged
  obtain ⟨hnext, -⟩ := ht.next?_of_isMerged (Bool.eq_true_of_not_eq_false hmerged)
  rw [IsEnd, hnext] at hend
  cases hend

theorem resolve_of_isMerged (ht : t.AliasForest) (hmerged : t.isMerged id = true) :
    t.resolve id = t.canonicalId id := by
  obtain ⟨hnext, hend⟩ := ht.next?_of_isMerged hmerged
  exact ht.resolve_of_chain (lt_size_of_isMerged hmerged) (.along hnext (.here _)) hend

theorem canonicalId_canonicalId (ht : t.AliasForest) (id : Id) :
    t.canonicalId (t.canonicalId id) = t.canonicalId id := by
  cases hmerged : t.isMerged id with
  | false => rw [canonicalId_of_isMerged_false hmerged, canonicalId_of_isMerged_false hmerged]
  | true =>
      obtain ⟨-, hend⟩ := ht.next?_of_isMerged hmerged
      exact canonicalId_of_isMerged_false (ht.isMerged_of_isEnd hend)

end AliasForest

/-! ## Appending an entry -/

theorem next?_append (row : Row) (hid : id < t.size) : (t.append row).next? id = t.next? id :=
  next?_congr (get_of_lt rfl hid)

/-- Chains through rows that are there do not change when others are added. -/
theorem Chain.of_next?_eq (hchain : t.Chain steps id last) (inside : Id → Prop)
    (hnext : ∀ x, inside x → u.next? x = t.next? x)
    (hinside : ∀ x target, inside x → t.next? x = some target → inside target) (hid : inside id) :
    u.Chain steps id last := by
  induction hchain with
  | here id => exact .here id
  | along hstep _ ih =>
      exact .along ((hnext _ hid).trans hstep) (ih (hinside _ _ hid hstep))

theorem Chain.append (ht : t.AliasForest) (hchain : t.Chain steps id last) (row : Row)
    (hid : id < t.size) : (t.append row).Chain steps id last :=
  hchain.of_next?_eq (· < t.size) (fun _ hx => next?_append row hx)
    (fun x target _ hnext => ht.next?_lt x target hnext) hid

theorem isEnd_append (row : Row) (hid : id < t.size) :
    (t.append row).IsEnd id ↔ t.IsEnd id := by
  rw [IsEnd, IsEnd, next?_append row hid]

namespace AliasForest

theorem append (ht : t.AliasForest) {entry : Entry}
    (hkind : entry.kind = .redirect ↔ entry.target.isSome = true)
    (htarget : ∀ target, entry.target = some target → target < t.size) :
    (t.append { entry }).AliasForest := by
  have hold : ∀ id < t.size, ∃ steps last,
      (t.append { entry }).Chain steps id last ∧ (t.append { entry }).IsEnd last := by
    intro id hid
    obtain ⟨steps, last, hchain, hlast⟩ := ht.ends id hid
    exact ⟨steps, last, hchain.append ht _ hid,
      (isEnd_append _ (ht.chain_lt hchain hid)).mpr hlast⟩
  refine
    { kind_iff := forall_rows rfl ht.kind_iff hkind
      target_lt := ?_
      ends := ?_
      merged := forall_rows rfl ?_ (by simp) }
  · rw [size_append]
    exact forall_rows rfl
      (fun id row hrow target h => Nat.lt_succ_of_lt (ht.target_lt id row hrow target h))
      (fun target h => Nat.lt_succ_of_lt (htarget target h))
  · intro id hid
    rw [size_append] at hid
    rcases Nat.lt_succ_iff_lt_or_eq.mp hid with hid | rfl
    · exact hold id hid
    · -- the new row ends its chain, or its chain goes on with one that is there
      have hget : (t.append { entry }).get t.size = entry := get_last rfl
      by_cases hredirect : entry.kind = .redirect
      · obtain ⟨target, hsome⟩ := Option.isSome_iff_exists.mp (hkind.mp hredirect)
        obtain ⟨steps, last, hchain, hlast⟩ := hold target (htarget target hsome)
        refine ⟨steps + 1, last, .along ?_ hchain, hlast⟩
        rw [next?, hget, if_pos hredirect, hsome]
      · refine ⟨0, t.size, .here _, isEnd_of_ne_redirect ?_⟩
        rwa [hget]
  · intro id row hrow kept hmerged
    obtain ⟨hkept, hend⟩ := ht.merged id row hrow kept hmerged
    exact ⟨hkept, (isEnd_append _ (ht.target_lt id row hrow kept hkept)).mpr hend⟩

/-- Entries that are added change nothing for those that are there. -/
theorem resolve_append (ht : t.AliasForest) (row : Row) (hid : id < t.size) :
    (t.append row).resolve id = t.resolve id := by
  obtain ⟨steps, hsteps, hchain, hlast⟩ := ht.chain_resolve hid
  refine follow_of_chain (hchain.append ht row hid) ?_ ?_
  · exact (isEnd_append row (ht.chain_lt hchain hid)).mpr hlast
  · rw [size_append]
    omega

end AliasForest

end ResultTable

/-! ## Merging a duplicate -/

namespace Row

variable (gone kept : Id) (row : Row)

@[simp] theorem kind_redirect : (row.redirect gone kept).entry.kind = row.entry.kind := by
  unfold redirect
  split <;> rfl

@[simp] theorem target_redirect :
    (row.redirect gone kept).entry.target =
      row.entry.target.map fun target => if target = gone then kept else target := by
  unfold redirect
  split
  · next htarget => simp [htarget]
  · next htarget =>
    cases hrow : row.entry.target with
    | none => rfl
    | some target =>
        have hne : target ≠ gone := fun heq => htarget (by rw [hrow, heq])
        simp [hne]

@[simp] theorem mergedInto_redirect :
    (row.redirect gone kept).mergedInto =
      row.mergedInto.map fun target => if target = gone then kept else target := by
  unfold redirect
  cases row.mergedInto with
  | none => rfl
  | some target =>
      simp only [Option.some.injEq, Option.map_some]
      split <;> rfl

end Row

namespace ResultTable

variable {t u : ResultTable} {id last kept gone : Id} {steps : Nat} {row : Row}

theorem rows_merge (t : ResultTable) (kept gone id : Id) :
    (t.merge kept gone).rows[id]? = t.rows[id]?.map fun row =>
      Row.redirect gone kept (if id = gone then Row.mergeInto kept row else row) := by
  rw [merge, Array.getElem?_map, Array.getElem?_modify]
  by_cases hid : gone = id
  · rw [if_pos hid]
    cases t.rows[id]? <;> simp [hid.symm]
  · rw [if_neg hid]
    simp only [Ne.symm hid, if_false]

/-- A row of the table after a merge is the duplicate, or it was there and its references were
redirected. -/
theorem exists_of_rows_merge (hrow : (t.merge kept gone).rows[id]? = some row) :
    ∃ old, t.rows[id]? = some old ∧
      row = Row.redirect gone kept (if id = gone then Row.mergeInto kept old else old) := by
  rw [rows_merge] at hrow
  obtain ⟨old, hold, rfl⟩ := Option.map_eq_some_iff.mp hrow
  exact ⟨old, hold, rfl⟩

theorem next?_merge (hgone : gone < t.size) (kept id : Id) :
    (t.merge kept gone).next? id =
      if id = gone then some kept
      else (t.next? id).map fun target => if target = gone then kept else target := by
  rcases Nat.lt_or_ge id t.size with hid | hid
  · obtain ⟨row, hrow⟩ := exists_row hid
    have hmerged := rows_merge t kept gone id
    rw [hrow, Option.map_some] at hmerged
    rw [next?, next?, get_of_rows hmerged, get_of_rows hrow, Row.kind_redirect,
      Row.target_redirect]
    by_cases hsame : id = gone
    · simp [hsame, Row.mergeInto]
    · simp only [if_neg hsame]
      split <;> rfl
  · have hne : id ≠ gone := fun heq => Nat.not_lt_of_le hid (heq ▸ hgone)
    rw [next?_of_size_le hid, next?_of_size_le (by rwa [size_merge]), if_neg hne]
    rfl

theorem isEnd_merge (hgone : gone < t.size) : (t.merge kept gone).IsEnd id ↔
    id ≠ gone ∧ t.IsEnd id := by
  rw [IsEnd, IsEnd, next?_merge hgone]
  by_cases hid : id = gone
  · simp [hid]
  · simp [hid]

theorem isMerged_merge (hgone : gone < t.size) :
    (t.merge kept gone).isMerged id = true ↔ id = gone ∨ t.isMerged id = true := by
  cases hrow : t.rows[id]? with
  | none =>
      have hne : id ≠ gone := by
        rintro rfl
        exact Nat.not_le_of_lt hgone (Array.getElem?_eq_none_iff.mp hrow)
      simp [isMerged, rows_merge, hrow, hne]
  | some row =>
      by_cases hid : id = gone
      · subst hid
        simp [isMerged, rows_merge, hrow, Row.mergeInto]
      · simp [isMerged, rows_merge, hrow, hid]

theorem isKept_merge (hgone : gone < t.size) :
    (t.merge kept gone).IsKept id ↔ id ≠ gone ∧ t.IsKept id := by
  have hmerged : (t.merge kept gone).isMerged id = true ↔ id = gone ∨ t.isMerged id = true :=
    isMerged_merge hgone
  rw [IsKept, IsKept, size_merge, ← Bool.not_eq_true, hmerged, not_or, Bool.not_eq_true]
  tauto

/-- What is asked for before one entry is merged into another. -/
structure Mergeable (t : ResultTable) (kept gone : Id) : Prop where
  kept_lt : kept < t.size
  gone_lt : gone < t.size
  ne : kept ≠ gone
  kind_ne : (t.get kept).kind ≠ .redirect

theorem mergeable_of_mergeInto (hmerge : t.mergeInto kept gone = .ok u) :
    t.Mergeable kept gone ∧ u = t.merge kept gone := by
  obtain ⟨hkept, hgone, hne, hkind, rfl⟩ := mergeInto_eq_ok hmerge
  exact ⟨⟨hkept, hgone, hne, hkind⟩, rfl⟩

theorem Mergeable.mergeInto_eq (hmay : t.Mergeable kept gone) :
    t.mergeInto kept gone = .ok (t.merge kept gone) := by
  unfold mergeInto
  rw [if_neg (Nat.not_le.mpr hmay.kept_lt), if_neg (Nat.not_le.mpr hmay.gone_lt), if_neg hmay.ne,
    if_neg hmay.kind_ne]

theorem Mergeable.isEnd (hmay : t.Mergeable kept gone) : t.IsEnd kept :=
  isEnd_of_ne_redirect hmay.kind_ne

theorem Mergeable.isEnd_merge (hmay : t.Mergeable kept gone) : (t.merge kept gone).IsEnd kept :=
  (ResultTable.isEnd_merge hmay.gone_lt).mpr ⟨hmay.ne, hmay.isEnd⟩

theorem canonicalId_merge (hmay : t.Mergeable kept gone) (hunmerged : t.isMerged gone = false) :
    (t.merge kept gone).canonicalId id =
      if t.canonicalId id = gone then kept else t.canonicalId id := by
  cases hrow : t.rows[id]? with
  | none =>
      have hne : id ≠ gone := by
        rintro rfl
        exact Nat.not_le_of_lt hmay.gone_lt (Array.getElem?_eq_none_iff.mp hrow)
      simp [canonicalId, rows_merge, hrow, hne]
  | some row =>
      have hmerged := rows_merge t kept gone id
      rw [hrow, Option.map_some] at hmerged
      rw [canonicalId_of_rows hmerged, canonicalId_of_rows hrow, Row.mergedInto_redirect]
      by_cases hid : id = gone
      · -- the duplicate was not merged before, so its own row does not count
        subst hid
        rw [isMerged_of_rows hrow, Option.isSome_eq_false_iff, Option.isNone_iff_eq_none]
          at hunmerged
        simp [hunmerged, Row.mergeInto, hmay.ne]
      · cases hinto : row.mergedInto with
        | none => simp [hid, hinto]
        | some target => simp [hid, hinto]

/-- A chain that passes the duplicate ends at the kept entry after the merge, any other chain ends
where it did. -/
theorem Chain.merge (hmay : t.Mergeable kept gone) (hchain : t.Chain steps id last)
    (hlast : t.IsEnd last) :
    ∃ more other, (t.merge kept gone).Chain more id other ∧ (t.merge kept gone).IsEnd other ∧
      (t.LeadsTo id gone → other = kept) ∧ (¬ t.LeadsTo id gone → other = last) := by
  -- one step to the kept entry, from the duplicate and from every alias of it
  have hdirect : ∀ x, t.LeadsTo x gone → (t.merge kept gone).next? x = some kept →
      ∃ more other, (t.merge kept gone).Chain more x other ∧ (t.merge kept gone).IsEnd other ∧
        (t.LeadsTo x gone → other = kept) ∧ (¬ t.LeadsTo x gone → other = last) :=
    fun x hleads hnext => ⟨1, kept, .along hnext (.here kept), hmay.isEnd_merge, fun _ => rfl,
      fun hnot => absurd hleads hnot⟩
  induction hchain with
  | here id =>
      by_cases hid : id = gone
      · refine hdirect id (hid ▸ LeadsTo.refl t id) ?_
        rw [next?_merge hmay.gone_lt, if_pos hid]
      · have hnot : ¬ t.LeadsTo id gone := by rwa [leadsTo_iff_of_isEnd hlast]
        exact ⟨0, id, .here id, (isEnd_merge hmay.gone_lt).mpr ⟨hid, hlast⟩,
          fun hleads => absurd hleads hnot, fun _ => rfl⟩
  | @along steps id target last hnext _ ih =>
      have hmerged := next?_merge hmay.gone_lt kept id
      rw [hnext, Option.map_some] at hmerged
      by_cases hid : id = gone
      · refine hdirect id (hid ▸ LeadsTo.refl t id) ?_
        rw [hmerged, if_pos hid]
      · rw [if_neg hid] at hmerged
        by_cases htarget : target = gone
        · rw [if_pos htarget] at hmerged
          refine hdirect id ?_ hmerged
          rw [leadsTo_iff hnext, htarget]
          exact Or.inr (LeadsTo.refl t gone)
        · rw [if_neg htarget] at hmerged
          obtain ⟨more, other, hrest, hend, hpasses, hmisses⟩ := ih hlast hdirect
          have hsame : t.LeadsTo id gone ↔ t.LeadsTo target gone := by
            rw [leadsTo_iff hnext, or_iff_right hid]
          rw [hsame]
          exact ⟨more + 1, other, .along hmerged hrest, hend, hpasses, hmisses⟩

namespace AliasForest

theorem merge (ht : t.AliasForest) (hmay : t.Mergeable kept gone) :
    (t.merge kept gone).AliasForest := by
  have hredirected : ∀ x < t.size, (if x = gone then kept else x) < t.size := by
    intro x hx
    split
    · exact hmay.kept_lt
    · exact hx
  constructor
  · intro id row hrow
    obtain ⟨old, hold, rfl⟩ := exists_of_rows_merge hrow
    rw [Row.kind_redirect, Row.target_redirect, Option.isSome_map]
    split
    · simp [Row.mergeInto]
    · exact ht.kind_iff id old hold
  · intro id row hrow target htarget
    obtain ⟨old, hold, rfl⟩ := exists_of_rows_merge hrow
    rw [Row.target_redirect] at htarget
    obtain ⟨before, hbefore, rfl⟩ := Option.map_eq_some_iff.mp htarget
    rw [size_merge]
    apply hredirected
    split at hbefore
    · cases hbefore
      exact hmay.kept_lt
    · exact ht.target_lt id old hold before hbefore
  · intro id hid
    rw [size_merge] at hid
    obtain ⟨steps, last, hchain, hlast⟩ := ht.ends id hid
    obtain ⟨more, other, hmerged, hend, -⟩ := hchain.merge hmay hlast
    exact ⟨more, other, hmerged, hend⟩
  · intro id row hrow target hmerged
    obtain ⟨old, hold, rfl⟩ := exists_of_rows_merge hrow
    rw [Row.mergedInto_redirect] at hmerged
    obtain ⟨before, hbefore, rfl⟩ := Option.map_eq_some_iff.mp hmerged
    have htarget : ∀ row : Row, row.entry.target = some before →
        (Row.redirect gone kept row).entry.target =
          some (if before = gone then kept else before) := by
      intro row hrow
      rw [Row.target_redirect, hrow, Option.map_some]
    split at hbefore
    · next hid =>
      cases hbefore
      refine ⟨?_, ?_⟩
      · rw [if_pos hid]
        exact htarget _ rfl
      · rw [if_neg hmay.ne]
        exact hmay.isEnd_merge
    · next hid =>
      obtain ⟨holdTarget, hend⟩ := ht.merged id old hold before hbefore
      refine ⟨?_, ?_⟩
      · rw [if_neg hid]
        exact htarget old holdTarget
      · split
        · exact hmay.isEnd_merge
        · next hother => exact (isEnd_merge hmay.gone_lt).mpr ⟨hother, hend⟩

/-- A merge is into an entry that was not merged. -/
theorem isKept_of_mergeable (ht : t.AliasForest) (hmay : t.Mergeable kept gone) :
    (t.merge kept gone).IsKept kept :=
  (isKept_merge hmay.gone_lt).mpr ⟨hmay.ne, hmay.kept_lt, ht.isMerged_of_isEnd hmay.isEnd⟩

theorem resolve_merge_of_leadsTo (ht : t.AliasForest) (hmay : t.Mergeable kept gone)
    (hid : id < t.size) (hleads : t.LeadsTo id gone) : (t.merge kept gone).resolve id = kept := by
  obtain ⟨steps, last, hchain, hlast⟩ := ht.ends id hid
  obtain ⟨more, other, hmerged, hend, hpasses, -⟩ := hchain.merge hmay hlast
  rw [(ht.merge hmay).resolve_of_chain (by rwa [size_merge]) hmerged hend]
  exact hpasses hleads

theorem resolve_merge_of_not_leadsTo (ht : t.AliasForest) (hmay : t.Mergeable kept gone)
    (hid : id < t.size) (hnot : ¬ t.LeadsTo id gone) :
    (t.merge kept gone).resolve id = t.resolve id := by
  obtain ⟨steps, -, hchain, hlast⟩ := ht.chain_resolve hid
  obtain ⟨more, other, hmerged, hend, -, hmisses⟩ := hchain.merge hmay hlast
  rw [(ht.merge hmay).resolve_of_chain (by rwa [size_merge]) hmerged hend]
  exact hmisses hnot

end AliasForest

/-! ## Every table that operations lead to -/

theorem follow_of_rows_eq (hrows : u.rows = t.rows) (steps : Nat) (id : Id) :
    u.follow steps id = t.follow steps id := by
  have hnext : ∀ x, u.next? x = t.next? x := fun x =>
    next?_congr (by rw [get, get, get?, get?, hrows])
  induction steps generalizing id with
  | zero => rfl
  | succ steps ih =>
      rw [follow, follow, hnext]
      cases t.next? id with
      | none => rfl
      | some target => exact ih target

theorem resolve_of_rows_eq (hrows : u.rows = t.rows) (id : Id) : u.resolve id = t.resolve id := by
  rw [resolve, resolve, size, size, hrows]
  exact follow_of_rows_eq hrows _ id

/-- Which results are registered does not matter for the aliases. -/
theorem AliasForest.of_rows_eq (ht : t.AliasForest) (hrows : u.rows = t.rows) :
    u.AliasForest := by
  have hsize : u.size = t.size := by rw [size, size, hrows]
  have hnext : ∀ x, u.next? x = t.next? x := fun x =>
    next?_congr (by rw [get, get, get?, get?, hrows])
  have hend : ∀ x, u.IsEnd x ↔ t.IsEnd x := fun x => by rw [IsEnd, IsEnd, hnext]
  constructor
  · rw [hrows]
    exact ht.kind_iff
  · rw [hrows, hsize]
    exact ht.target_lt
  · intro id hid
    rw [hsize] at hid
    obtain ⟨steps, last, hchain, hlast⟩ := ht.ends id hid
    have hsame := hchain.of_next?_eq (fun _ => True) (fun x _ => hnext x)
      (fun _ _ _ _ => trivial) trivial
    exact ⟨steps, last, hsame, (hend last).mpr hlast⟩
  · intro id row hrow kept hmerged
    rw [hrows] at hrow
    obtain ⟨htarget, hkept⟩ := ht.merged id row hrow kept hmerged
    exact ⟨htarget, (hend kept).mpr hkept⟩

/-- An appended row changes nothing about the results before it. -/
theorem AliasForest.sameFor_of_rows {row : Row} (ht : t.AliasForest)
    (hrows : u.rows = (t.append row).rows) (hid : id < t.size) : t.SameFor u id := by
  have hresolve : u.resolve id = t.resolve id :=
    (resolve_of_rows_eq hrows id).trans (ht.resolve_append row hid)
  have hget : u.get id = t.get id := get_of_lt hrows hid
  have hend : u.get (t.resolve id) = t.get (t.resolve id) := get_of_lt hrows (ht.resolve_lt hid)
  constructor
  · simp only [rankKey, resolvedKind, hresolve, hget, hend]
  · simp only [look, hresolve, hget, hend]

theorem AliasForest.empty : ({} : ResultTable).AliasForest where
  kind_iff id row hrow := by simp at hrow
  target_lt id row hrow := by simp at hrow
  ends id hid := absurd hid (Nat.not_lt_zero id)
  merged id row hrow := by simp at hrow

/-- The tables that appending, merging and registering lead to. -/
inductive Built : ResultTable → Prop
  | empty : Built {}
  | push {t next : ResultTable} {entry : Entry} {id : Id} (hbuilt : Built t)
      (hpush : t.push entry = .ok (id, next)) : Built next
  | mergeInto {t next : ResultTable} {kept gone : Id} (hbuilt : Built t)
      (hmerge : t.mergeInto kept gone = .ok next) : Built next
  | register {t next : ResultTable} {name : String} {id : Id} (hbuilt : Built t)
      (hregister : t.register? name id = some next) : Built next

theorem Built.aliasForest (ht : t.Built) : t.AliasForest := by
  induction ht with
  | empty => exact AliasForest.empty
  | push _ hpush ih =>
      obtain ⟨hkind, htarget, -, rfl⟩ := push_eq_ok hpush
      exact ih.append hkind htarget
  | mergeInto _ hmerge ih =>
      obtain ⟨hmay, rfl⟩ := mergeable_of_mergeInto hmerge
      exact ih.merge hmay
  | register _ hregister ih =>
      unfold register? at hregister
      split at hregister
      · cases hregister
        exact ih.of_rows_eq rfl
      · cases hregister

/-- In every table that operations lead to, an entry has a target exactly if it is an alias; every
chain of aliases ends, within fewer steps than there are rows, at an entry that is none, and this is
what an ID resolves to; a duplicate leads to the entry it was merged into, which is neither an alias
nor a duplicate; and a merge makes exactly the chains that pass the duplicate end at the kept
entry. -/
theorem Built.chains_end (ht : t.Built) :
    (∀ id < t.size, (t.get id).kind = .redirect ↔ (t.get id).target.isSome = true) ∧
    (∀ id < t.size, ∃ steps < t.size, ∃ last < t.size,
      t.Chain steps id last ∧ (t.get last).kind ≠ .redirect ∧ t.resolve id = last) ∧
    (∀ id < t.size, t.resolvedKind id ≠ .redirect) ∧
    (∀ id, t.isMerged id = true →
      t.canonicalId id < t.size ∧ (t.get (t.canonicalId id)).kind ≠ .redirect ∧
        t.isMerged (t.canonicalId id) = false ∧ (t.get id).target = some (t.canonicalId id) ∧
        t.resolve id = t.canonicalId id) ∧
    (∀ id, t.canonicalId (t.canonicalId id) = t.canonicalId id) ∧
    ∀ kept gone next, t.mergeInto kept gone = .ok next → ∀ id < t.size,
      (t.LeadsTo id gone → next.resolve id = kept) ∧
        (¬ t.LeadsTo id gone → next.resolve id = t.resolve id) := by
  have hforest := ht.aliasForest
  have hends : ∀ id < t.size, (t.get (t.resolve id)).kind ≠ .redirect := by
    intro id hid
    obtain ⟨_, -, -, hlast⟩ := hforest.chain_resolve hid
    exact hforest.kind_of_isEnd (hforest.resolve_lt hid) hlast
  refine ⟨?_, ?_, hends, ?_, hforest.canonicalId_canonicalId, ?_⟩
  · intro id hid
    obtain ⟨row, hrow⟩ := exists_row hid
    rw [get_of_rows hrow]
    exact hforest.kind_iff id row hrow
  · intro id hid
    obtain ⟨steps, hsteps, hchain, -⟩ := hforest.chain_resolve hid
    exact ⟨steps, hsteps, t.resolve id, hforest.resolve_lt hid, hchain, hends id hid, rfl⟩
  · intro id hmerged
    have hid := lt_size_of_isMerged hmerged
    obtain ⟨hnext, hend⟩ := hforest.next?_of_isMerged hmerged
    have hkept := hforest.next?_lt id _ hnext
    refine ⟨hkept, hforest.kind_of_isEnd hkept hend, hforest.isMerged_of_isEnd hend, ?_,
      hforest.resolve_of_isMerged hmerged⟩
    obtain ⟨row, hrow⟩ := exists_row hid
    rwa [get_of_rows hrow, ← hforest.next?_of_rows hrow]
  · intro kept gone next hmerge id hid
    obtain ⟨hmay, rfl⟩ := mergeable_of_mergeInto hmerge
    exact ⟨hforest.resolve_merge_of_leadsTo hmay hid,
      hforest.resolve_merge_of_not_leadsTo hmay hid⟩

/-- Append entries and then merge pairs of them, the second into the first. -/
def pushAndMerge (entries : List Entry) (pairs : List (Id × Id)) : Except Misuse ResultTable := do
  let t ← entries.foldlM (fun t entry => return (← t.push entry).2) {}
  pairs.foldlM (fun t pair => t.mergeInto pair.1 pair.2) t

theorem built_pushAndMerge {entries : List Entry} {pairs : List (Id × Id)}
    (hrun : pushAndMerge entries pairs = .ok t) : t.Built := by
  obtain ⟨pushed, hpushed, hmerged⟩ := except_bind_eq_ok.mp hrun
  have hbuilt : pushed.Built := by
    refine foldlM_keeps hpushed ?_ .empty
    intro t entry next ht hnext
    obtain ⟨⟨id, table⟩, hpush, hresult⟩ := except_bind_eq_ok.mp hnext
    cases hresult
    exact ht.push hpush
  exact foldlM_keeps hmerged (fun _ _ _ ht hmerge => ht.mergeInto hmerge) hbuilt

/-- Entry 1, to which entries 2 and 3 lead, is merged into the later entry 4, then once more into
entry 0, and entry 4 after it. -/
theorem Built.chains_end_twiceMerged :
    let entries : List Entry := [
      { name := "a", url := "a.html", kind := .page },
      { name := "b", url := "b.html", kind := .page },
      .aliasTo "c" 1,
      .aliasTo "d" 2,
      { name := "e", url := "e.html", kind := .page }]
    ∃ t, pushAndMerge entries [(4, 1), (0, 1), (0, 4)] = .ok t ∧ t.Built ∧ t.size = 5 ∧
      t.isMerged 1 = true ∧ t.canonicalId 1 = 0 ∧ t.resolve 3 = 0 ∧
        (t.get (t.canonicalId 1)).kind ≠ .redirect ∧ ∀ id < t.size, t.resolvedKind id ≠ .redirect := by
  intro entries
  have hfacts : (pushAndMerge entries [(4, 1), (0, 1), (0, 4)]).toOption.map (fun t =>
      (t.size, t.isMerged 1, t.canonicalId 1, t.resolve 3)) = some (5, true, 0, 0) := by
    decide +kernel
  obtain ⟨t, hrun, hfacts⟩ := Option.map_eq_some_iff.mp hfacts
  rw [toOption_eq_some] at hrun
  simp only [Prod.mk.injEq] at hfacts
  obtain ⟨hsize, hmerged, hcanonical, hresolve⟩ := hfacts
  have hbuilt := built_pushAndMerge hrun
  obtain ⟨-, -, hkinds, hduplicates, -⟩ := Built.chains_end hbuilt
  exact ⟨t, hrun, hbuilt, hsize, hmerged, hcanonical, hresolve, (hduplicates 1 hmerged).2.1,
    hkinds⟩

end ResultTable

end PrefixSearch
