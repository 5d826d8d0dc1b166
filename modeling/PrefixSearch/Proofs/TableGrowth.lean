import PrefixSearch.Proofs.RankedSet

/-!
# Tables that grow

While entries are only added, the rows that are already there do not change: a new duplicate is the
last row when it is merged, and nothing leads to it yet.  An alias leads to an earlier row, so what
a result looks like and how it ranks depends on earlier rows only.  Neither changes, then, and a set
that was filled under an earlier table is the set that the later table would have given.
-/

namespace PrefixSearch

namespace ResultTable

variable {t u : ResultTable} {id : Id}

/-! ## Following aliases -/

/-- Every alias leads to an earlier row. -/
def Downward (t : ResultTable) : Prop :=
  ∀ id target, t.next? id = some target → target < id

theorem next?_congr (hget : t.get id = u.get id) : t.next? id = u.next? id := by
  simp only [next?, hget]

theorem follow_le (hdown : t.Downward) (steps : Nat) (id : Id) : t.follow steps id ≤ id := by
  induction steps generalizing id with
  | zero => exact Nat.le_refl id
  | succ steps ih =>
      rw [follow]
      cases hnext : t.next? id with
      | none => exact Nat.le_refl id
      | some target =>
          exact Nat.le_trans (ih target) (Nat.le_of_lt (hdown id target hnext))

/-- A chain of aliases has an end, and finding it takes no more steps than there are rows before
its beginning. -/
theorem follow_congr (hdown : t.Downward) (hget : ∀ x ≤ id, t.get x = u.get x)
    {steps more : Nat} (hsteps : id < steps) (hmore : id < more) :
    t.follow steps id = u.follow more id := by
  induction id using Nat.strongRecOn generalizing steps more with
  | _ id ih =>
      cases steps with
      | zero => exact absurd hsteps (Nat.not_lt_zero id)
      | succ steps =>
          cases more with
          | zero => exact absurd hmore (Nat.not_lt_zero id)
          | succ more =>
              have hnext : t.next? id = u.next? id := next?_congr (hget id (Nat.le_refl id))
              rw [follow, follow, ← hnext]
              cases htarget : t.next? id with
              | none => rfl
              | some target =>
                  have hlt : target < id := hdown id target htarget
                  exact ih target hlt
                    (fun x hx => hget x (Nat.le_trans hx (Nat.le_of_lt hlt)))
                    (Nat.lt_of_lt_of_le hlt (Nat.le_of_lt_succ hsteps))
                    (Nat.lt_of_lt_of_le hlt (Nat.le_of_lt_succ hmore))

theorem resolve_le (hdown : t.Downward) (id : Id) : t.resolve id ≤ id :=
  follow_le hdown (t.size + 1) id

/-- An entry that is no alias resolves to itself. -/
theorem resolve_of_ne_redirect (hkind : (t.get id).kind ≠ .redirect) : t.resolve id = id := by
  simp [resolve, follow, next?, hkind]

/-! ## Tables that agree on a result -/

/-- A result ranks the same and looks the same in two tables. -/
def SameFor (t u : ResultTable) (id : Id) : Prop :=
  t.rankKey id = u.rankKey id ∧ t.look id = u.look id

/-- Tables with the same rows up to a result agree on it. -/
theorem sameFor_of_get_eq (hdown : t.Downward) (hget : ∀ x ≤ id, t.get x = u.get x)
    (ht : id < t.size) (hu : id < u.size) : t.SameFor u id := by
  have hresolve : t.resolve id = u.resolve id :=
    follow_congr hdown hget (Nat.lt_succ_of_lt ht) (Nat.lt_succ_of_lt hu)
  have hid : t.get id = u.get id := hget id (Nat.le_refl id)
  have hend : t.get (t.resolve id) = u.get (u.resolve id) := by
    rw [← hresolve]
    exact hget (t.resolve id) (resolve_le hdown id)
  constructor
  · simp only [rankKey, resolvedKind, hid, hend]
  · simp only [look, hid, hend]

theorem SameFor.ranksBefore_iff {a b : Id} (ha : t.SameFor u a) (hb : t.SameFor u b) :
    t.RanksBefore a b ↔ u.RanksBefore a b := by
  rw [RanksBefore, RanksBefore, ha.1, hb.1]

theorem SameFor.sameTarget_eq {a b : Id} (ha : t.SameFor u a) (hb : t.SameFor u b) :
    t.sameTarget a b = u.sameTarget a b := by
  rw [Bool.eq_iff_iff, sameTarget_iff, sameTarget_iff, ha.2, hb.2]

end ResultTable

namespace Ranked

variable {t u : ResultTable} {bound : Option Nat} {id : Id} {set : List Id}

theorem place_congr (hid : t.SameFor u id) (hset : ∀ x ∈ set, t.SameFor u x) :
    place t id set = place u id set := by
  induction set with
  | nil => rfl
  | cons head set ih =>
      obtain ⟨hhead, hrest⟩ := List.forall_mem_cons.mp hset
      by_cases hbefore : t.RanksBefore head id
      · rw [place_cons_of_before hbefore,
          place_cons_of_before ((hhead.ranksBefore_iff hid).mp hbefore), ih hrest]
      · rw [place_cons_of_not_before hbefore,
          place_cons_of_not_before (mt (hhead.ranksBefore_iff hid).mpr hbefore)]

theorem find?_sameTarget_congr (hid : t.SameFor u id) (hset : ∀ x ∈ set, t.SameFor u x) :
    set.find? (t.sameTarget · id) = set.find? (u.sameTarget · id) := by
  induction set with
  | nil => rfl
  | cons head set ih =>
      obtain ⟨hhead, hrest⟩ := List.forall_mem_cons.mp hset
      rw [List.find?_cons, List.find?_cons, hhead.sameTarget_eq hid, ih hrest]

variable [Search]

/-- A search may look at more than how results rank, but not where it counts in a set in rank order. -/
theorem put_congr (hid : t.SameFor u id) (hset : ∀ x ∈ set, t.SameFor u x)
    (hranked : set.Pairwise u.RanksBefore) : put t id set = put u id set := by
  have hsame : set.Pairwise t.RanksBefore := hranked.imp_of_mem fun ha hb hbefore =>
    ((hset _ ha).ranksBefore_iff (hset _ hb)).mpr hbefore
  rw [put_eq_place hsame, put_eq_place hranked, place_congr hid hset]

theorem insert_congr (hid : t.SameFor u id) (hset : ∀ x ∈ set, t.SameFor u x)
    (hranked : set.Pairwise u.RanksBefore) :
    insert t bound id set = insert u bound id set := by
  have herase : ∀ other, put t id (set.erase other) = put u id (set.erase other) := fun other =>
    put_congr hid (fun x hx => hset x (List.mem_of_mem_erase hx))
      (hranked.sublist List.erase_sublist)
  unfold insert
  rw [find?_sameTarget_congr hid hset, put_congr hid hset hranked]
  cases set.find? (u.sameTarget · id) with
  | none => rfl
  | some other => simp only [herase]

theorem insertAll_onto_congr {ids : List Id} (hids : ∀ x ∈ ids, t.SameFor u x)
    (hset : ∀ x ∈ set, t.SameFor u x) (hranked : set.Pairwise u.RanksBefore) (hapart : Apart u set) :
    insertAll t bound ids set = insertAll u bound ids set := by
  induction ids generalizing set with
  | nil => rfl
  | cons head ids ih =>
      obtain ⟨hhead, hrest⟩ := List.forall_mem_cons.mp hids
      have hnext : (insert u bound head set).Pairwise u.RanksBefore ∧
          Apart u (insert u bound head set) := ranked_apart_insert head hranked hapart
      rw [insertAll_cons, insertAll_cons, insert_congr hhead hset hranked]
      refine ih hrest (fun x hx => ?_) hnext.1 hnext.2
      rcases mem_of_mem_insert hx with rfl | hx
      · exact hhead
      · exact hset x hx

theorem insertAll_congr {ids : List Id} (hids : ∀ x ∈ ids, t.SameFor u x) :
    insertAll t bound ids [] = insertAll u bound ids [] :=
  insertAll_onto_congr hids nofun List.Pairwise.nil List.nodup_nil

end Ranked

namespace ResultTable

variable {t : ResultTable} {id : Id}

/-! ## Appending a row -/

/-- The table with one more row. -/
def append (t : ResultTable) (row : Row) : ResultTable :=
  { t with rows := t.rows.push row }

@[simp] theorem size_append (t : ResultTable) (row : Row) : (t.append row).size = t.size + 1 := by
  simp [append, size]

theorem lt_size_of_rows {row : Row} (hrow : t.rows[id]? = some row) : id < t.size :=
  (Array.getElem?_eq_some_iff.mp hrow).1

theorem rows_append_of_lt (row : Row) (hid : id < t.size) :
    (t.append row).rows[id]? = t.rows[id]? := by
  rw [append, Array.getElem?_push_lt hid, Array.getElem?_eq_getElem hid]

@[simp] theorem rows_append_size (t : ResultTable) (row : Row) :
    (t.append row).rows[t.size]? = some row := by
  simp [append, size]

/-- A row of the longer table is the new one or one that was there. -/
theorem rows_append_eq_some {row new : Row} :
    (t.append new).rows[id]? = some row ↔ t.rows[id]? = some row ∨ (id = t.size ∧ new = row) := by
  constructor
  · intro hrow
    have hlt : id < t.size + 1 := by
      rw [← size_append t new]
      exact lt_size_of_rows hrow
    rcases Nat.lt_succ_iff_lt_or_eq.mp hlt with hid | rfl
    · exact Or.inl (by rwa [rows_append_of_lt new hid] at hrow)
    · exact Or.inr ⟨rfl, by simpa using hrow⟩
  · rintro (hrow | ⟨rfl, rfl⟩)
    · rwa [rows_append_of_lt new (lt_size_of_rows hrow)]
    · exact rows_append_size t new

theorem push_eq_ok {t table : ResultTable} {entry : Entry} {id : Id}
    (hpush : t.push entry = .ok (id, table)) :
    (entry.kind = .redirect ↔ entry.target.isSome = true) ∧
      (∀ target, entry.target = some target → target < t.size) ∧
      id = t.size ∧ table = t.append { entry } := by
  unfold push at hpush
  split at hpush
  · cases hpush
  · next hkind =>
    split at hpush
    · cases hpush
    · next hnone =>
      obtain ⟨rfl, rfl⟩ := Prod.mk.inj (Except.ok.inj hpush)
      refine ⟨by simpa using hkind, ?_, rfl, rfl⟩
      intro target htarget
      rw [htarget, Option.filter_eq_none_iff] at hnone
      simpa using hnone target

/-- An entry that passes the checks is appended. -/
theorem push_of {entry : Entry} (hkind : entry.kind = .redirect ↔ entry.target.isSome = true)
    (htarget : ∀ target, entry.target = some target → target < t.size) :
    t.push entry = .ok (t.size, t.append { entry }) := by
  have hnone : entry.target.filter (t.size ≤ ·) = none := by
    rw [Option.filter_eq_none_iff]
    intro target hsome
    simpa using htarget target hsome
  unfold push
  rw [if_neg (not_not.mpr (propext hkind)), hnone]
  rfl

theorem mergeInto_eq_ok {t table : ResultTable} {kept gone : Id}
    (hmerge : t.mergeInto kept gone = .ok table) :
    kept < t.size ∧ gone < t.size ∧ kept ≠ gone ∧ (t.get kept).kind ≠ .redirect ∧
      table = t.merge kept gone := by
  unfold mergeInto at hmerge
  split at hmerge
  · cases hmerge
  · next hkept =>
    split at hmerge
    · cases hmerge
    · next hgone =>
      split at hmerge
      · cases hmerge
      · next hne =>
        split at hmerge
        · cases hmerge
        · next hkind =>
          exact ⟨Nat.not_le.mp hkept, Nat.not_le.mp hgone, hne, hkind,
            (Except.ok.inj hmerge).symm⟩

@[simp] theorem size_merge (t : ResultTable) (kept gone : Id) :
    (t.merge kept gone).size = t.size := by
  simp [merge, size]

/-- Merging the last row, to which no row leads, changes no other row. -/
theorem rows_merge_last {kept : Id} (hkept : kept ≠ t.size) (entry : Entry)
    (hrows : ∀ (id : Id) (row : Row), t.rows[id]? = some row →
      row.entry.target ≠ some t.size ∧ row.mergedInto ≠ some t.size) :
    ((t.append { entry }).merge kept t.size).rows =
      (t.append (Row.mergeInto kept { entry })).rows := by
  have hother : ∀ row : Row, row.entry.target ≠ some t.size → row.mergedInto ≠ some t.size →
      Row.redirect t.size kept row = row := by
    intro row htarget hmerged
    simp [Row.redirect, htarget, hmerged]
  apply Array.ext_getElem?
  intro id
  rw [merge, Array.getElem?_map, Array.getElem?_modify]
  -- the last row becomes an alias, and no other row leads to it and has to be redirected
  by_cases hid : t.size = id
  · subst hid
    have hnew := hother (Row.mergeInto kept { entry }) (by simpa [Row.mergeInto] using hkept)
      (by simpa [Row.mergeInto] using hkept)
    rw [if_pos rfl, rows_append_size, rows_append_size]
    simp [hnew]
  · rw [if_neg hid]
    rcases Nat.lt_or_gt_of_ne hid with hgt | hlt
    · have hout : ∀ row, (t.append row).rows[id]? = none := by
        intro row
        apply Array.getElem?_eq_none
        have hsize := size_append t row
        rw [size] at hsize
        omega
      rw [hout, hout]
      rfl
    · rw [rows_append_of_lt _ hlt, rows_append_of_lt _ hlt]
      cases hrow : t.rows[id]? with
      | none => rfl
      | some row =>
          obtain ⟨htarget, hmerged⟩ := hrows id row hrow
          simp [hother row htarget hmerged]

/-! ## The registered results -/

instance : Std.TransCmp ResultKey.compare :=
  inferInstanceAs (Std.TransCmp (compareLex (compareOn Prod.fst) (compareOn Prod.snd)))

instance : Std.LawfulEqCmp ResultKey.compare where
  eq_of_compare := by
    intro a b heq
    rw [ResultKey.compare, Ordering.then_eq_eq] at heq
    exact Prod.ext (Std.LawfulEqCmp.eq_of_compare heq.1) (Std.LawfulEqCmp.eq_of_compare heq.2)

theorem find?_register (name other url : String) :
    (t.register name id).find? other url =
      if (name, (t.get id).url) = (other, url) ∧ t.find? name (t.get id).url = none then some id
      else t.find? other url := by
  simp only [register, find?, Std.TreeMap.getElem?_insertIfNew, Std.LawfulEqCmp.compare_eq_iff_eq]
  congr 1
  rw [Std.TreeMap.mem_iff_isSome_getElem?]
  simp

theorem find?_merge (kept gone : Id) (name url : String) :
    (t.merge kept gone).find? name url =
      (t.find? name url).map fun id => if id = gone then kept else id := by
  simp [merge, find?, Std.TreeMap.getElem?_map]

theorem get_of_rows {row : Row} (hrow : t.rows[id]? = some row) : t.get id = row.entry := by
  simp [get, get?, hrow]

theorem isMerged_of_rows {row : Row} (hrow : t.rows[id]? = some row) :
    t.isMerged id = row.mergedInto.isSome := by
  simp [isMerged, hrow]

theorem canonicalId_of_rows {row : Row} (hrow : t.rows[id]? = some row) :
    t.canonicalId id = row.mergedInto.getD id := by
  simp [canonicalId, hrow]

/-- The ID is in the table and was not merged into another one. -/
def IsKept (t : ResultTable) (id : Id) : Prop :=
  id < t.size ∧ t.isMerged id = false

theorem isKept_of_rows {row : Row} (hrow : t.rows[id]? = some row) :
    t.IsKept id ↔ row.mergedInto = none := by
  simp [IsKept, lt_size_of_rows hrow, isMerged_of_rows hrow]

theorem exists_row (hid : id < t.size) : ∃ row, t.rows[id]? = some row :=
  ⟨t.rows[id], Array.getElem?_eq_getElem hid⟩

section LongerTable

variable {u : ResultTable} {new : Row}

theorem size_of_rows (hrows : u.rows = (t.append new).rows) : u.size = t.size + 1 := by
  rw [size, hrows]
  exact size_append t new

/-- What holds of every row of a table and of the new one holds of every row of the longer table. -/
theorem forall_rows {P : Id → Row → Prop} (hrows : u.rows = (t.append new).rows)
    (hold : ∀ (id : Id) (row : Row), t.rows[id]? = some row → P id row) (hnew : P t.size new) :
    ∀ (id : Id) (row : Row), u.rows[id]? = some row → P id row := by
  intro id row hrow
  rw [hrows, rows_append_eq_some] at hrow
  rcases hrow with hrow | ⟨rfl, rfl⟩
  · exact hold id row hrow
  · exact hnew

theorem get_of_lt (hrows : u.rows = (t.append new).rows) (hid : id < t.size) :
    u.get id = t.get id := by
  rw [get, get, get?, get?, hrows, rows_append_of_lt new hid]

theorem canonicalId_of_lt (hrows : u.rows = (t.append new).rows) (hid : id < t.size) :
    u.canonicalId id = t.canonicalId id := by
  rw [canonicalId, canonicalId, hrows, rows_append_of_lt new hid]

theorem get_last (hrows : u.rows = (t.append new).rows) : u.get t.size = new.entry :=
  get_of_rows (by rw [hrows, rows_append_size])

theorem canonicalId_last (hrows : u.rows = (t.append new).rows) :
    u.canonicalId t.size = new.mergedInto.getD t.size :=
  canonicalId_of_rows (by rw [hrows, rows_append_size])

theorem isKept_iff (hrows : u.rows = (t.append new).rows) (id : Id) :
    u.IsKept id ↔ t.IsKept id ∨ (id = t.size ∧ new.mergedInto = none) := by
  rw [IsKept, size_of_rows hrows, isMerged, hrows]
  by_cases hid : id < t.size
  · have hne : id ≠ t.size := Nat.ne_of_lt hid
    rw [rows_append_of_lt new hid]
    simp [IsKept, isMerged, hid, hne, Nat.lt_succ_of_lt hid]
  · by_cases hlast : id = t.size
    · subst hlast
      rw [rows_append_size]
      simp [IsKept]
    · have hout : ¬ id < t.size + 1 := fun hlt =>
        hid (Nat.lt_of_le_of_ne (Nat.le_of_lt_succ hlt) hlast)
      simp [IsKept, hid, hlast, hout]

end LongerTable

/-- Longer tables agree with a table on its results. -/
theorem sameFor_of_rows {u : ResultTable} {row : Row} (hdown : t.Downward)
    (hrows : u.rows = (t.append row).rows) (hid : id < t.size) : t.SameFor u id := by
  have hget : ∀ x ≤ id, t.get x = u.get x := fun x hx =>
    (get_of_lt hrows (Nat.lt_of_le_of_lt hx hid)).symm
  refine sameFor_of_get_eq hdown hget hid ?_
  rw [size_of_rows hrows]
  exact Nat.lt_succ_of_lt hid

/-! ## Tables to which entries were only added -/

/-- What holds of a table to which entries were only added, each with its normalized name. -/
structure Grown (normalize : String → String) (t : ResultTable) : Prop where
  target_lt : ∀ (id : Id) (row : Row), t.rows[id]? = some row →
    ∀ target, row.entry.target = some target → target < id
  merged_lt : ∀ (id : Id) (row : Row), t.rows[id]? = some row →
    ∀ kept, row.mergedInto = some kept → kept < id
  redirect_of_merged : ∀ (id : Id) (row : Row), t.rows[id]? = some row →
    row.mergedInto ≠ none → row.entry.kind = .redirect
  find?_eq : ∀ (id : Id) (row : Row), t.rows[id]? = some row → row.entry.kind ≠ .redirect →
    t.find? (normalize row.entry.name) row.entry.url = some id

namespace Grown

variable {normalize : String → String}

theorem empty (normalize : String → String) : ({} : ResultTable).Grown normalize := by
  constructor <;> simp

theorem downward (ht : t.Grown normalize) : t.Downward := by
  intro id target hnext
  rw [next?] at hnext
  split at hnext
  · cases hrow : t.rows[id]? with
    | none =>
        have hnone : t.get id = default := by simp [get, get?, hrow]
        rw [hnone] at hnext
        cases hnext
    | some row =>
        rw [get_of_rows hrow] at hnext
        exact ht.target_lt id row hrow target hnext
  · cases hnext

/-- No row leads to a row that is not there yet. -/
theorem not_to_size (ht : t.Grown normalize) (id : Id) (row : Row)
    (hrow : t.rows[id]? = some row) :
    row.entry.target ≠ some t.size ∧ row.mergedInto ≠ some t.size := by
  have hid : id < t.size := lt_size_of_rows hrow
  constructor
  · intro htarget
    exact Nat.lt_asymm hid (ht.target_lt id row hrow t.size htarget)
  · intro hmerged
    exact Nat.lt_asymm hid (ht.merged_lt id row hrow t.size hmerged)

theorem canonicalId_le (ht : t.Grown normalize) (hid : id < t.size) : t.canonicalId id ≤ id := by
  obtain ⟨row, hrow⟩ := exists_row hid
  rw [canonicalId_of_rows hrow]
  cases hmerged : row.mergedInto with
  | none => exact Nat.le_refl id
  | some kept => exact Nat.le_of_lt (ht.merged_lt id row hrow kept hmerged)

/-- An entry that is no alias was not merged. -/
theorem isKept_of_ne_redirect (ht : t.Grown normalize) (hid : id < t.size)
    (hkind : (t.get id).kind ≠ .redirect) : t.IsKept id := by
  obtain ⟨row, hrow⟩ := exists_row hid
  rw [get_of_rows hrow] at hkind
  rw [isKept_of_rows hrow]
  exact Decidable.byContradiction fun hmerged =>
    hkind (ht.redirect_of_merged id row hrow hmerged)

/-- An entry that is no duplicate was added. -/
theorem fresh (ht : t.Grown normalize) (entry : Entry) (u : ResultTable)
    (hrows : u.rows = (t.append { entry }).rows)
    (htarget : ∀ target, entry.target = some target → target < t.size)
    (hold : ∀ name url old, t.find? name url = some old → u.find? name url = some old)
    (hnew : entry.kind ≠ .redirect → u.find? (normalize entry.name) entry.url = some t.size) :
    u.Grown normalize where
  target_lt := forall_rows hrows ht.target_lt htarget
  merged_lt := forall_rows hrows ht.merged_lt (by simp)
  redirect_of_merged := forall_rows hrows ht.redirect_of_merged (by simp)
  find?_eq := by
    refine forall_rows hrows (fun id row hrow hkind => ?_) hnew
    exact hold _ _ id (ht.find?_eq id row hrow hkind)

/-- A duplicate was added and merged. -/
theorem duplicate (ht : t.Grown normalize) (entry : Entry) {kept : Id} (hkept : kept < t.size) :
    ((t.append { entry }).merge kept t.size).Grown normalize := by
  -- the new row is the only one that the merge changes
  have hrows := rows_merge_last (Nat.ne_of_lt hkept) entry ht.not_to_size
  refine
    { target_lt := forall_rows hrows ht.target_lt ?_
      merged_lt := forall_rows hrows ht.merged_lt ?_
      redirect_of_merged := forall_rows hrows ht.redirect_of_merged ?_
      find?_eq := forall_rows hrows ?_ ?_ }
  · rintro target ⟨rfl⟩
    exact hkept
  · rintro target ⟨rfl⟩
    exact hkept
  · intro _
    rfl
  · intro id row hrow hkind
    have hfind : (t.append { entry }).find? (normalize row.entry.name) row.entry.url = some id :=
      ht.find?_eq id row hrow hkind
    rw [find?_merge, hfind, Option.map_some, if_neg (Nat.ne_of_lt (lt_size_of_rows hrow))]
  · intro hkind
    exact absurd rfl hkind

/-- Two entries that are no aliases never look the same: the later one would have been merged. -/
theorem eq_of_sameTarget (ht : t.Grown normalize) {a b : Id} (ha : a < t.size) (hb : b < t.size)
    (haKind : (t.get a).kind ≠ .redirect) (hbKind : (t.get b).kind ≠ .redirect)
    (hsame : t.sameTarget a b = true) : a = b := by
  obtain ⟨left, hleft⟩ := exists_row ha
  obtain ⟨right, hright⟩ := exists_row hb
  rw [sameTarget_iff, look, look, resolve_of_ne_redirect haKind, resolve_of_ne_redirect hbKind,
    get_of_rows hleft, get_of_rows hright] at hsame
  rw [get_of_rows hleft] at haKind
  rw [get_of_rows hright] at hbKind
  obtain ⟨hname, hurl⟩ := Prod.mk.inj hsame
  have hfindLeft := ht.find?_eq a left hleft haKind
  have hfindRight := ht.find?_eq b right hright hbKind
  rw [← hname, ← hurl, hfindLeft] at hfindRight
  exact Option.some.inj hfindRight

end Grown

end ResultTable

end PrefixSearch
