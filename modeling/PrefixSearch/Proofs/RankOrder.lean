import Mathlib.Data.List.Dedup
import PrefixSearch.RankedSet

/-!
# The order of ranks and the classes of results that look the same

Two relations decide what a set of results holds.  Ranking is a strict total order, because the
last field of a key is the ID.  Looking the same is an equivalence, because it compares the name and
the URL that an alias resolves to.  Nothing here supposes that the table is well formed: both facts
hold of every table.

`Lists` says that a list has exactly the results with a property, each once, in rank order.  There
is at most one such list.
-/

namespace PrefixSearch

namespace ResultTable

variable {t : ResultTable} {a b c : Id}

/-- The result `a` ranks before the result `b`. -/
def RanksBefore (t : ResultTable) (a b : Id) : Prop :=
  t.rankKey a < t.rankKey b

instance (t : ResultTable) : DecidableRel t.RanksBefore :=
  fun a b => inferInstanceAs (Decidable (t.rankKey a < t.rankKey b))

theorem ranksBefore_irrefl (t : ResultTable) (a : Id) : ¬ t.RanksBefore a a :=
  List.lt_irrefl (t.rankKey a).toList

theorem RanksBefore.trans (hab : t.RanksBefore a b) (hbc : t.RanksBefore b c) :
    t.RanksBefore a c :=
  List.lt_trans hab hbc

theorem RanksBefore.asymm (hab : t.RanksBefore a b) : ¬ t.RanksBefore b a :=
  fun hba => t.ranksBefore_irrefl a (hab.trans hba)

theorem RanksBefore.ne (hab : t.RanksBefore a b) : a ≠ b := by
  rintro rfl
  exact t.ranksBefore_irrefl a hab

/-- Two results never rank equally. -/
theorem ranksBefore_or_ranksBefore (t : ResultTable) (hne : a ≠ b) :
    t.RanksBefore a b ∨ t.RanksBefore b a := by
  by_contra hneither
  rw [not_or] at hneither
  obtain ⟨hab, hba⟩ := hneither
  have hkeys : (t.rankKey a).toList = (t.rankKey b).toList :=
    List.le_antisymm (List.not_lt.mp hba) (List.not_lt.mp hab)
  have hids : a = b := by
    simp only [RankKey.toList, rankKey, List.cons.injEq] at hkeys
    exact hkeys.2.2.2.2.1
  exact hne hids

theorem ranksBefore_of_not_ranksBefore (hne : a ≠ b) (hba : ¬ t.RanksBefore b a) :
    t.RanksBefore a b :=
  (t.ranksBefore_or_ranksBefore hne).resolve_right hba

/-- What a result looks like: its name, and its URL once aliases are followed. -/
def look (t : ResultTable) (id : Id) : String × String :=
  ((t.get id).name, (t.get (t.resolve id)).url)

theorem sameTarget_iff : t.sameTarget a b = true ↔ t.look a = t.look b := by
  simp only [sameTarget, look, Bool.and_eq_true, Bool.or_eq_true, beq_iff_eq, Prod.mk.injEq]
  constructor
  · rintro ⟨hname, hresolve | hurl⟩
    · exact ⟨hname, by rw [hresolve]⟩
    · exact ⟨hname, hurl⟩
  · rintro ⟨hname, hurl⟩
    exact ⟨hname, Or.inr hurl⟩

/-- The result has the property, and no result with a lower ID that has it looks the same. -/
def Lowest (t : ResultTable) (P : Id → Prop) (id : Id) : Prop :=
  P id ∧ ∀ other, P other → t.sameTarget other id = true → id ≤ other

/-- Every result with the property looks the same as a lowest one. -/
theorem exists_lowest {P : Id → Prop} (id : Id) (hid : P id) :
    ∃ low, t.Lowest P low ∧ t.look low = t.look id := by
  induction id using Nat.strongRecOn with
  | _ id ih =>
      by_cases hlow : t.Lowest P id
      · exact ⟨id, hlow, rfl⟩
      · simp only [Lowest, hid, true_and, not_forall, Nat.not_le, sameTarget_iff] at hlow
        obtain ⟨other, hother, hlook, hlt⟩ := hlow
        obtain ⟨low, hlowest, hsame⟩ := ih other hlt hother
        exact ⟨low, hlowest, hsame.trans hlook⟩

theorem Lowest.eq_of_look {P : Id → Prop} (ha : t.Lowest P a) (hb : t.Lowest P b)
    (hlook : t.look a = t.look b) : a = b :=
  Nat.le_antisymm (ha.2 b hb.1 (sameTarget_iff.mpr hlook.symm))
    (hb.2 a ha.1 (sameTarget_iff.mpr hlook))

theorem lowest_congr {P Q : Id → Prop} (hPQ : ∀ id, P id ↔ Q id) (id : Id) :
    t.Lowest P id ↔ t.Lowest Q id := by
  simp only [Lowest, hPQ]

/-! How the lowest results change when one more result gets the property. -/

theorem lowest_or_eq_iff_of_holds {P : Id → Prop} (ha : P a) (x : Id) :
    t.Lowest (fun y => P y ∨ y = a) x ↔ t.Lowest P x := by
  refine lowest_congr (fun y => ?_) x
  constructor
  · rintro (hy | rfl)
    · exact hy
    · exact ha
  · exact Or.inl

theorem lowest_or_eq_iff_of_shadowed {P : Id → Prop} (hb : t.Lowest P b)
    (hlook : t.look b = t.look a) (hlt : b < a) (x : Id) :
    t.Lowest (fun y => P y ∨ y = a) x ↔ t.Lowest P x := by
  simp only [Lowest, sameTarget_iff] at hb ⊢
  constructor
  · rintro ⟨hx | rfl, hmin⟩
    · exact ⟨hx, fun y hy hyx => hmin y (Or.inl hy) hyx⟩
    · exact absurd (hmin b (Or.inl hb.1) hlook) (Nat.not_le_of_lt hlt)
  · rintro ⟨hx, hmin⟩
    refine ⟨Or.inl hx, ?_⟩
    rintro y (hy | rfl) hyx
    · exact hmin y hy hyx
    · exact Nat.le_trans (hmin b hb.1 (hlook.trans hyx)) (Nat.le_of_lt hlt)

theorem lowest_or_eq_iff_of_fresh {P : Id → Prop} (hnone : ∀ y, P y → t.look y ≠ t.look a)
    (x : Id) : t.Lowest (fun y => P y ∨ y = a) x ↔ x = a ∨ t.Lowest P x := by
  simp only [Lowest, sameTarget_iff]
  constructor
  · rintro ⟨hx | rfl, hmin⟩
    · exact Or.inr ⟨hx, fun y hy hyx => hmin y (Or.inl hy) hyx⟩
    · exact Or.inl rfl
  · rintro (rfl | ⟨hx, hmin⟩)
    · refine ⟨Or.inr rfl, ?_⟩
      rintro y (hy | rfl) hyx
      · exact absurd hyx (hnone y hy)
      · exact Nat.le_refl y
    · refine ⟨Or.inl hx, ?_⟩
      rintro y (hy | rfl) hyx
      · exact hmin y hy hyx
      · exact absurd hyx.symm (hnone x hx)

theorem lowest_or_eq_iff_of_replaced {P : Id → Prop} (hb : t.Lowest P b)
    (hlook : t.look b = t.look a) (hlt : a < b) (x : Id) :
    t.Lowest (fun y => P y ∨ y = a) x ↔ x = a ∨ (x ≠ b ∧ t.Lowest P x) := by
  have hleast : ∀ y, P y → t.look y = t.look a → b ≤ y := fun y hy hya =>
    hb.2 y hy (sameTarget_iff.mpr (hya.trans hlook.symm))
  simp only [Lowest, sameTarget_iff] at hb ⊢
  constructor
  · rintro ⟨hx | rfl, hmin⟩
    · refine Or.inr ⟨?_, hx, fun y hy hyx => hmin y (Or.inl hy) hyx⟩
      rintro rfl
      exact absurd (hmin a (Or.inr rfl) hlook.symm) (Nat.not_le_of_lt hlt)
    · exact Or.inl rfl
  · rintro (rfl | ⟨hne, hx, hmin⟩)
    · refine ⟨Or.inr rfl, ?_⟩
      rintro y (hy | rfl) hyx
      · exact Nat.le_trans (Nat.le_of_lt hlt) (hleast y hy hyx)
      · exact Nat.le_refl y
    · refine ⟨Or.inl hx, ?_⟩
      rintro y (hy | rfl) hyx
      · exact hmin y hy hyx
      · exact absurd (Nat.le_antisymm (hmin b hb.1 (hlook.trans hyx)) (hleast x hx hyx.symm)) hne

/-- The list has exactly the results with the property, in strict rank order. -/
structure Lists (t : ResultTable) (P : Id → Prop) (set : List Id) : Prop where
  ranked : set.Pairwise t.RanksBefore
  mem_iff : ∀ id, id ∈ set ↔ P id

theorem nodup_of_ranked {set : List Id} (hset : set.Pairwise t.RanksBefore) : set.Nodup :=
  hset.imp RanksBefore.ne

/-- Strict rank order and the members determine a list. -/
theorem eq_of_ranked {left right : List Id} (hleft : left.Pairwise t.RanksBefore)
    (hright : right.Pairwise t.RanksBefore) (hmem : ∀ id, id ∈ left ↔ id ∈ right) :
    left = right := by
  have hperm : left.Perm right :=
    (List.perm_ext_iff_of_nodup (nodup_of_ranked hleft) (nodup_of_ranked hright)).mpr hmem
  refine hperm.eq_of_pairwise ?_ hleft hright
  intro a b _ _ hab hba
  exact (hab.asymm hba).elim

theorem Lists.unique {P : Id → Prop} {left right : List Id} (hleft : t.Lists P left)
    (hright : t.Lists P right) : left = right :=
  eq_of_ranked hleft.ranked hright.ranked fun id =>
    (hleft.mem_iff id).trans (hright.mem_iff id).symm

theorem Lists.congr {P Q : Id → Prop} {set : List Id} (hset : t.Lists P set)
    (hPQ : ∀ id, P id ↔ Q id) : t.Lists Q set :=
  ⟨hset.ranked, fun id => (hset.mem_iff id).trans (hPQ id)⟩

/-- The number of different looks among some results. -/
def lookCount (t : ResultTable) (ids : List Id) : Nat :=
  (ids.map t.look).dedup.length

/-- Within a property, of two results that look the same the one with the lower ID ranks first. -/
def RanksFollowIds (t : ResultTable) (P : Id → Prop) : Prop :=
  ∀ a b, P a → P b → t.sameTarget a b = true → a < b → t.RanksBefore a b

theorem ranksFollowIds_mem_iff {ids : List Id} :
    t.RanksFollowIds (· ∈ ids) ↔
      ∀ a ∈ ids, ∀ b ∈ ids, t.sameTarget a b = true → a < b → t.RanksBefore a b :=
  ⟨fun hranks a ha b hb => hranks a b ha hb, fun hranks a b ha hb => hranks a ha b hb⟩

instance (t : ResultTable) (ids : List Id) : Decidable (t.RanksFollowIds (· ∈ ids)) :=
  decidable_of_iff _ ranksFollowIds_mem_iff.symm

theorem RanksFollowIds.mono {P Q : Id → Prop} (hQ : t.RanksFollowIds Q)
    (hPQ : ∀ id, P id → Q id) : t.RanksFollowIds P :=
  fun a b ha hb hlook hlt => hQ a b (hPQ a ha) (hPQ b hb) hlook hlt

end ResultTable

end PrefixSearch
