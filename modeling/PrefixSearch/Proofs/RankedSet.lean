import PrefixSearch.Proofs.RankOrder

/-!
# What a ranked set holds

`InsertOutcome` says once what an insertion can do; everything else about insertions is derived from
it.  Whatever the bound, the members stay in strict rank order and look different from one another.
A set without a bound holds the lowest ID of every look among the results that were put into it, in
whatever order they came.

None of it depends on how sets are searched.  In a set in rank order every search ends at the same
spot, and in any other set only the order of the members, and which of them a bound cuts off, is up to
the search.
-/

namespace PrefixSearch

namespace Ranked

open ResultTable

variable {t : ResultTable} {id other : Id} {set : List Id}

/-! ## Placing an ID -/

@[simp] theorem place_nil : place t id [] = [id] := rfl

theorem place_cons_of_before (hbefore : t.RanksBefore other id) :
    place t id (other :: set) = other :: place t id set := by
  have hahead : decide (t.rankKey other < t.rankKey id) = true := decide_eq_true hbefore
  simp [place, List.takeWhile, List.dropWhile, hahead]

theorem place_cons_of_not_before (hbefore : ¬ t.RanksBefore other id) :
    place t id (other :: set) = id :: other :: set := by
  have hahead : decide (t.rankKey other < t.rankKey id) = false := decide_eq_false hbefore
  simp [place, List.takeWhile, List.dropWhile, hahead]

/-- Placing permutes: only the position of the new ID depends on the ranks. -/
theorem place_perm (t : ResultTable) (id : Id) (set : List Id) :
    (place t id set).Perm (id :: set) := by
  induction set with
  | nil => rfl
  | cons head set ih =>
      by_cases hbefore : t.RanksBefore head id
      · rw [place_cons_of_before hbefore]
        exact (ih.cons head).trans (List.Perm.swap id head set)
      · rw [place_cons_of_not_before hbefore]

@[simp] theorem mem_place : other ∈ place t id set ↔ other = id ∨ other ∈ set := by
  rw [(place_perm t id set).mem_iff, List.mem_cons]

@[simp] theorem length_place : (place t id set).length = set.length + 1 :=
  (place_perm t id set).length_eq

theorem ranked_place (hset : set.Pairwise t.RanksBefore) (hid : id ∉ set) :
    (place t id set).Pairwise t.RanksBefore := by
  induction set with
  | nil => simp
  | cons head set ih =>
      have hne : head ≠ id := fun heq => hid (heq ▸ List.mem_cons_self)
      have hrest : id ∉ set := fun hmem => hid (List.mem_cons_of_mem head hmem)
      rw [List.pairwise_cons] at hset
      by_cases hbefore : t.RanksBefore head id
      · rw [place_cons_of_before hbefore, List.pairwise_cons]
        refine ⟨?_, ih hset.2 hrest⟩
        intro x hx
        rcases mem_place.mp hx with rfl | hx
        · exact hbefore
        · exact hset.1 x hx
      · have hfirst : t.RanksBefore id head :=
          ranksBefore_of_not_ranksBefore hne.symm hbefore
        rw [place_cons_of_not_before hbefore, List.pairwise_cons]
        refine ⟨?_, List.pairwise_cons.mpr hset⟩
        intro x hx
        rcases List.mem_cons.mp hx with rfl | hx
        · exact hfirst
        · exact hfirst.trans (hset.1 x hx)

theorem place_of_all_before (hset : ∀ x ∈ set, t.RanksBefore x id) :
    place t id set = set ++ [id] := by
  induction set with
  | nil => rfl
  | cons head set ih =>
      rw [place_cons_of_before (hset head List.mem_cons_self),
        ih fun x hx => hset x (List.mem_cons_of_mem head hx)]
      rfl

/-- A new ID that ranks before a member does not become the last one. -/
theorem mem_take_place (hother : other ∈ set) (hbefore : t.RanksBefore id other) :
    id ∈ (place t id set).take set.length := by
  induction set with
  | nil => cases hother
  | cons head set ih =>
      rw [List.length_cons]
      by_cases hhead : t.RanksBefore head id
      · rw [place_cons_of_before hhead, List.take_succ_cons]
        have hrest : other ∈ set := by
          refine (List.mem_cons.mp hother).resolve_left ?_
          rintro rfl
          exact hbefore.asymm hhead
        exact List.mem_cons_of_mem head (ih hrest)
      · rw [place_cons_of_not_before hhead, List.take_succ_cons]
        exact List.mem_cons_self

/-- What cannot be ahead of the new ID is not looked at. -/
theorem place_append_of_not_before {front back : List Id}
    (hback : ∀ x ∈ back, ¬ t.RanksBefore x id) :
    place t id (front ++ back) = place t id front ++ back := by
  induction front with
  | nil =>
      cases back with
      | nil => rfl
      | cons head back => simp [place_cons_of_not_before (hback head List.mem_cons_self)]
  | cons head front ih =>
      by_cases hbefore : t.RanksBefore head id
      · simp only [List.cons_append, place_cons_of_before hbefore, ih]
      · simp only [List.cons_append, place_cons_of_not_before hbefore]

/-- The best of a set with one more result depend only on the best of the set. -/
theorem take_place (t : ResultTable) (id : Id) (count : Nat) (set : List Id) :
    (place t id (set.take count)).take count = (place t id set).take count := by
  induction set generalizing count with
  | nil => simp
  | cons head set ih =>
      cases count with
      | zero => simp
      | succ count =>
          by_cases hbefore : t.RanksBefore head id
          · simp only [List.take_succ_cons, place_cons_of_before hbefore, ih]
          · simp only [List.take_succ_cons, place_cons_of_not_before hbefore]
            cases count with
            | zero => simp
            | succ count => simp [List.take_take]

theorem sort_perm (t : ResultTable) (set : List Id) : (sort t set).Perm set := by
  induction set with
  | nil => exact List.Perm.refl []
  | cons head set ih => exact (place_perm t head _).trans (ih.cons head)

theorem ranked_sort (hset : set.Nodup) : (sort t set).Pairwise t.RanksBefore := by
  induction set with
  | nil => exact List.Pairwise.nil
  | cons head set ih =>
      obtain ⟨hhead, hrest⟩ := List.nodup_cons.mp hset
      exact ranked_place (ih hrest) fun hmem => hhead ((sort_perm t set).mem_iff.mp hmem)

/-! ## Searching for the spot of an ID -/

theorem placeAt_length (front back : List Id) (id : Id) :
    placeAt front.length id (front ++ back) = front ++ id :: back := by
  rw [placeAt, List.take_left', List.drop_left'] <;> rfl

theorem placeAt_perm (spot : Nat) (id : Id) (set : List Id) :
    (placeAt spot id set).Perm (id :: set) := by
  have hperm : (placeAt spot id set).Perm (id :: (set.take spot ++ set.drop spot)) :=
    List.perm_middle
  rwa [List.take_append_drop] at hperm

/-- In rank order, the results that rank before the given one come first. -/
theorem split_of_ranked (hset : set.Pairwise t.RanksBefore) (id : Id) :
    ∃ front back, set = front ++ back ∧ (∀ other ∈ front, t.RanksBefore other id) ∧
      (∀ other ∈ back, ¬ t.RanksBefore other id) ∧ place t id set = front ++ id :: back := by
  induction set with
  | nil => exact ⟨[], [], rfl, nofun, nofun, rfl⟩
  | cons head set ih =>
      obtain ⟨hhead, hrest⟩ := List.pairwise_cons.mp hset
      by_cases hbefore : t.RanksBefore head id
      · obtain ⟨front, back, rfl, hfront, hback, hplace⟩ := ih hrest
        refine ⟨head :: front, back, rfl, List.forall_mem_cons.mpr ⟨hbefore, hfront⟩, hback, ?_⟩
        rw [place_cons_of_before hbefore, hplace, List.cons_append]
      · refine ⟨[], head :: set, rfl, nofun, ?_, place_cons_of_not_before hbefore⟩
        refine List.forall_mem_cons.mpr ⟨hbefore, fun other hother hlt => hbefore ?_⟩
        exact (hhead other hother).trans hlt

section

variable [Search]

theorem put_perm (t : ResultTable) (id : Id) (set : List Id) : (put t id set).Perm (id :: set) :=
  placeAt_perm _ id set

@[simp] theorem mem_put : other ∈ put t id set ↔ other = id ∨ other ∈ set := by
  rw [(put_perm t id set).mem_iff, List.mem_cons]

@[simp] theorem length_put : (put t id set).length = set.length + 1 :=
  (put_perm t id set).length_eq

/-- In rank order, every search ends behind the results that rank before the new one. -/
theorem put_eq_place (hset : set.Pairwise t.RanksBefore) (id : Id) :
    put t id set = place t id set := by
  obtain ⟨front, back, rfl, hfront, hback, hplace⟩ := split_of_ranked hset id
  rw [put, Search.spot_of_split t id front back hfront hback, placeAt_length, hplace]

theorem ranked_put (hset : set.Pairwise t.RanksBefore) (hid : id ∉ set) :
    (put t id set).Pairwise t.RanksBefore := by
  rw [put_eq_place hset]
  exact ranked_place hset hid

end

/-! ## Inserting an ID -/

@[simp] theorem best_none : best none set = set := rfl

@[simp] theorem best_some {count : Nat} : best (some count) set = set.take count := rfl

theorem best_sublist (bound : Option Nat) (set : List Id) : (best bound set).Sublist set := by
  cases bound with
  | none => exact List.Sublist.refl set
  | some count => exact List.take_sublist count set

/-- The members of a set look different from one another. -/
def Apart (t : ResultTable) (set : List Id) : Prop :=
  (set.map t.look).Nodup

theorem Apart.eq_of_look {a b : Id} (hset : Apart t set) (ha : a ∈ set) (hb : b ∈ set)
    (hlook : t.look a = t.look b) : a = b :=
  List.inj_on_of_nodup_map hset ha hb hlook

theorem Apart.of_subset {sub : List Id} (hset : Apart t set) (hsub : ∀ x ∈ sub, x ∈ set)
    (hnodup : sub.Nodup) : Apart t sub :=
  hnodup.map_on fun a ha b hb hlook => hset.eq_of_look (hsub a ha) (hsub b hb) hlook

theorem apart_cons {head : Id} :
    Apart t (head :: set) ↔ (∀ x ∈ set, t.look x ≠ t.look head) ∧ Apart t set := by
  simp [Apart]

theorem apart_of_lowest {P : Id → Prop} (hset : t.Lists (t.Lowest P) set) : Apart t set := by
  refine List.pairwise_map.mpr (hset.ranked.imp_of_mem ?_)
  intro a b ha hb hbefore hlook
  exact hbefore.ne (((hset.mem_iff a).mp ha).eq_of_look ((hset.mem_iff b).mp hb) hlook)

theorem apart_of_perm {other : List Id} (hperm : other.Perm set) :
    Apart t other ↔ Apart t set :=
  (hperm.map t.look).nodup_iff

/-- Replacing a member by a result that looks the same changes no look. -/
theorem apart_cons_erase (hother : other ∈ set) (hlook : t.look other = t.look id) :
    Apart t (id :: set.erase other) ↔ Apart t set := by
  rw [← apart_of_perm (List.perm_cons_erase hother).symm, Apart, Apart, List.map_cons,
    List.map_cons, hlook]

theorem lists_lowest_nil : t.Lists (t.Lowest fun _ => False) [] :=
  ⟨List.Pairwise.nil, by simp [Lowest]⟩

/-- A list within the bound is not changed by a bound. -/
def Fits (bound : Option Nat) (set : List Id) : Prop :=
  ∀ count, bound = some count → set.length ≤ count

theorem fits_none (set : List Id) : Fits none set := nofun

theorem best_of_fits {bound : Option Nat} (hfits : Fits bound set) : best bound set = set := by
  cases bound with
  | none => rfl
  | some count => exact List.take_of_length_le (hfits count rfl)

theorem fits_best (bound : Option Nat) (set : List Id) : Fits bound (best bound set) := by
  rintro count rfl
  exact List.length_take_le count set

variable [Search]

/-- All that an insertion can do to a set. -/
inductive InsertOutcome (t : ResultTable) (bound : Option Nat) (id : Id) (set : List Id) :
    List Id → Prop
  | present (hmem : id ∈ set) : InsertOutcome t bound id set set
  | shadowed (other : Id) (hother : other ∈ set) (hlook : t.look other = t.look id)
      (hlt : other < id) : InsertOutcome t bound id set set
  | placed (hfresh : ∀ x ∈ set, t.look x ≠ t.look id) :
      InsertOutcome t bound id set (best bound (put t id set))
  | replaced (other : Id) (hother : other ∈ set) (hlook : t.look other = t.look id)
      (hlt : id < other) (hmem : id ∉ set) :
      InsertOutcome t bound id set (best bound (put t id (set.erase other)))

theorem insert_outcome (t : ResultTable) (bound : Option Nat) (id : Id) (set : List Id) :
    InsertOutcome t bound id set (insert t bound id set) := by
  unfold insert
  split
  · next hcontains => exact .present (List.contains_iff_mem.mp hcontains)
  · next hcontains =>
    have hmem : id ∉ set := fun hid => hcontains (List.contains_iff_mem.mpr hid)
    split
    · next hfind =>
      refine .placed fun x hx hlook => ?_
      exact List.find?_eq_none.mp hfind x hx (sameTarget_iff.mpr hlook)
    · next other hfind =>
      have hother : other ∈ set := List.mem_of_find?_eq_some hfind
      have hsame := List.find?_some hfind
      have hlook : t.look other = t.look id := sameTarget_iff.mp hsame
      split
      · next hlt => exact .shadowed other hother hlook hlt
      · next hlt =>
        have hne : other ≠ id := fun heq => hmem (heq ▸ hother)
        exact .replaced other hother hlook (Nat.lt_of_le_of_ne (Nat.le_of_not_lt hlt) hne.symm) hmem

theorem insert_of_mem {bound : Option Nat} (hmem : id ∈ set) : insert t bound id set = set := by
  simp [insert, hmem]

theorem insert_of_fresh {bound : Option Nat} (hfresh : ∀ x ∈ set, t.look x ≠ t.look id) :
    insert t bound id set = best bound (put t id set) := by
  have houtcome := insert_outcome t bound id set
  generalize insert t bound id set = result at houtcome
  cases houtcome with
  | present hmem => exact absurd rfl (hfresh id hmem)
  | shadowed other hother hlook => exact absurd hlook (hfresh other hother)
  | placed => rfl
  | replaced other hother hlook => exact absurd hlook (hfresh other hother)

theorem insert_of_shadowed {bound : Option Nat} (hset : Apart t set) (hother : other ∈ set)
    (hlook : t.look other = t.look id) (hlt : other < id) : insert t bound id set = set := by
  have houtcome := insert_outcome t bound id set
  generalize insert t bound id set = result at houtcome
  cases houtcome with
  | present => rfl
  | shadowed => rfl
  | placed hfresh => exact absurd hlook (hfresh other hother)
  | replaced found hfound hfoundLook hfoundLt =>
      have heq : found = other := hset.eq_of_look hfound hother (hfoundLook.trans hlook.symm)
      exact absurd hlt (heq ▸ Nat.lt_asymm hfoundLt)

theorem insert_of_replaced {bound : Option Nat} (hset : Apart t set) (hother : other ∈ set)
    (hlook : t.look other = t.look id) (hlt : id < other) :
    insert t bound id set = best bound (put t id (set.erase other)) := by
  have hunique : ∀ found ∈ set, t.look found = t.look id → found = other := fun found hfound h =>
    hset.eq_of_look hfound hother (h.trans hlook.symm)
  have houtcome := insert_outcome t bound id set
  generalize insert t bound id set = result at houtcome
  cases houtcome with
  | present hmem =>
      exact absurd (hunique id hmem rfl) (Nat.ne_of_lt hlt)
  | shadowed found hfound hfoundLook hfoundLt =>
      have heq : found = other := hunique found hfound hfoundLook
      exact absurd hlt (heq ▸ Nat.lt_asymm hfoundLt)
  | placed hfresh => exact absurd hlook (hfresh other hother)
  | replaced found hfound hfoundLook => rw [hunique found hfound hfoundLook]

/-! ## Sets without a bound -/

/-- Putting one more result into the list of the lowest ones gives the list of the lowest ones. -/
theorem lists_lowest_insert {P : Id → Prop} (hset : t.Lists (t.Lowest P) set) :
    t.Lists (t.Lowest fun x => P x ∨ x = id) (insert t none id set) := by
  have hlow : ∀ x, x ∈ set ↔ t.Lowest P x := hset.mem_iff
  have houtcome := insert_outcome t none id set
  generalize insert t none id set = result at houtcome
  cases houtcome with
  | present hmem =>
      have hid : P id := ((hlow id).mp hmem).1
      exact hset.congr fun x => (lowest_or_eq_iff_of_holds hid x).symm
  | shadowed other hother hlook hlt =>
      have hlowest := (hlow other).mp hother
      exact hset.congr fun x => (lowest_or_eq_iff_of_shadowed hlowest hlook hlt x).symm
  | placed hfresh =>
      -- a result of the same look would have the lowest of its look in the set
      have hnone : ∀ y, P y → t.look y ≠ t.look id := by
        intro y hy hyid
        obtain ⟨low, hlowest, hlowLook⟩ := exists_lowest y hy
        exact hfresh low ((hlow low).mpr hlowest) (hlowLook.trans hyid)
      have hmem : id ∉ set := fun hid => hfresh id hid rfl
      refine ⟨ranked_put hset.ranked hmem, fun x => ?_⟩
      rw [lowest_or_eq_iff_of_fresh hnone, ← hlow, best_none, mem_put]
  | replaced other hother hlook hlt hmem =>
      have hlowest := (hlow other).mp hother
      have hgone : id ∉ set.erase other := fun hid => hmem (List.mem_of_mem_erase hid)
      refine ⟨ranked_put (hset.ranked.sublist List.erase_sublist) hgone, fun x => ?_⟩
      rw [lowest_or_eq_iff_of_replaced hlowest hlook hlt, ← hlow, best_none, mem_put,
        (nodup_of_ranked hset.ranked).mem_erase_iff]

@[simp] theorem insertAll_nil {bound : Option Nat} : insertAll t bound [] set = set := rfl

@[simp] theorem insertAll_cons {bound : Option Nat} {ids : List Id} :
    insertAll t bound (id :: ids) set = insertAll t bound ids (insert t bound id set) := rfl

theorem insertAll_append {bound : Option Nat} (left right : List Id) :
    insertAll t bound (left ++ right) set =
      insertAll t bound right (insertAll t bound left set) := by
  simp [insertAll]

theorem lists_lowest_insertAll_onto {P : Id → Prop} (ids : List Id)
    (hset : t.Lists (t.Lowest P) set) :
    t.Lists (t.Lowest fun x => P x ∨ x ∈ ids) (insertAll t none ids set) := by
  induction ids generalizing P set with
  | nil => simpa using hset
  | cons head ids ih =>
      rw [insertAll_cons]
      refine (ih (lists_lowest_insert hset)).congr (lowest_congr fun x => ?_)
      simp only [List.mem_cons, or_assoc]

/-- An unbounded set lists the lowest ID of every look that was put into it. -/
theorem lists_lowest_insertAll (t : ResultTable) (ids : List Id) :
    t.Lists (t.Lowest (· ∈ ids)) (insertAll t none ids []) := by
  refine (lists_lowest_insertAll_onto ids lists_lowest_nil).congr (lowest_congr fun x => ?_)
  simp

/-! ## What every insertion keeps -/

theorem mem_of_mem_insert {bound : Option Nat} (hmem : other ∈ insert t bound id set) :
    other = id ∨ other ∈ set := by
  have houtcome := insert_outcome t bound id set
  generalize insert t bound id set = result at houtcome hmem
  cases houtcome with
  | present => exact Or.inr hmem
  | shadowed => exact Or.inr hmem
  | placed => exact mem_put.mp ((best_sublist bound _).subset hmem)
  | replaced =>
      rcases mem_put.mp ((best_sublist bound _).subset hmem) with heq | hold
      · exact Or.inl heq
      · exact Or.inr (List.mem_of_mem_erase hold)

theorem mem_of_mem_insertAll {bound : Option Nat} {ids : List Id}
    (hmem : other ∈ insertAll t bound ids set) : other ∈ ids ∨ other ∈ set := by
  induction ids generalizing set with
  | nil => exact Or.inr hmem
  | cons head ids ih =>
      rw [insertAll_cons] at hmem
      rcases ih hmem with hids | hset
      · exact Or.inl (List.mem_cons_of_mem head hids)
      · rcases mem_of_mem_insert hset with rfl | hold
        · exact Or.inl List.mem_cons_self
        · exact Or.inr hold

theorem apart_put : Apart t (put t id set) ↔ Apart t (id :: set) :=
  apart_of_perm (put_perm t id set)

/-- Whatever its rank order is, a set in which all look different stays so. -/
theorem Apart.insert {bound : Option Nat} (id : Id) (hset : Apart t set) :
    Apart t (Ranked.insert t bound id set) := by
  have hbest : ∀ list : List Id, Apart t list → Apart t (best bound list) := fun list hlist =>
    hlist.sublist ((best_sublist bound list).map t.look)
  have houtcome := insert_outcome t bound id set
  generalize Ranked.insert t bound id set = result at houtcome
  cases houtcome with
  | present => exact hset
  | shadowed => exact hset
  | placed hfresh => exact hbest _ (apart_put.mpr (apart_cons.mpr ⟨hfresh, hset⟩))
  | replaced other hother hlook =>
      exact hbest _ (apart_put.mpr ((apart_cons_erase hother hlook).mpr hset))

theorem Apart.insertAll {bound : Option Nat} (ids : List Id) (hset : Apart t set) :
    Apart t (Ranked.insertAll t bound ids set) := by
  induction ids generalizing set with
  | nil => exact hset
  | cons head ids ih => exact ih (hset.insert head)

/-- The members of a set, whatever its bound is, are in rank order and look different. -/
theorem ranked_apart_insert {bound : Option Nat} (id : Id) (hranked : set.Pairwise t.RanksBefore)
    (hapart : Apart t set) :
    (insert t bound id set).Pairwise t.RanksBefore ∧ Apart t (insert t bound id set) := by
  have hput : ∀ list : List Id, list.Pairwise t.RanksBefore → id ∉ list →
      (best bound (put t id list)).Pairwise t.RanksBefore := fun list hlist hmem =>
    (ranked_put hlist hmem).sublist (best_sublist bound _)
  refine ⟨?_, hapart.insert id⟩
  have houtcome := insert_outcome t bound id set
  generalize insert t bound id set = result at houtcome
  cases houtcome with
  | present => exact hranked
  | shadowed => exact hranked
  | placed hfresh => exact hput set hranked fun hmem => hfresh id hmem rfl
  | replaced other hother hlook hlt hmem =>
      exact hput _ (hranked.sublist List.erase_sublist) fun hid =>
        hmem (List.mem_of_mem_erase hid)

theorem ranked_apart_insertAll_onto {bound : Option Nat} (ids : List Id)
    (hranked : set.Pairwise t.RanksBefore) (hapart : Apart t set) :
    (insertAll t bound ids set).Pairwise t.RanksBefore ∧ Apart t (insertAll t bound ids set) := by
  induction ids generalizing set with
  | nil => exact ⟨hranked, hapart⟩
  | cons head ids ih =>
      obtain ⟨hheadRanked, hheadApart⟩ := ranked_apart_insert head hranked hapart
      exact ih hheadRanked hheadApart

theorem ranked_apart_insertAll (t : ResultTable) (bound : Option Nat) (ids : List Id) :
    (insertAll t bound ids []).Pairwise t.RanksBefore ∧ Apart t (insertAll t bound ids []) :=
  ranked_apart_insertAll_onto ids List.Pairwise.nil List.nodup_nil

/-- An insertion never leaves more members than the bound. -/
theorem fits_insert {bound : Option Nat} (id : Id) (hfits : Fits bound set) :
    Fits bound (insert t bound id set) := by
  have houtcome := insert_outcome t bound id set
  generalize insert t bound id set = result at houtcome
  cases houtcome with
  | present => exact hfits
  | shadowed => exact hfits
  | placed => exact fits_best bound _
  | replaced => exact fits_best bound _

theorem fits_insertAll {bound : Option Nat} (ids : List Id) (hfits : Fits bound set) :
    Fits bound (insertAll t bound ids set) := by
  induction ids generalizing set with
  | nil => exact hfits
  | cons head ids ih => exact ih (fits_insert head hfits)

theorem fits_replace {bound : Option Nat} {old new : Id} (hfits : Fits bound set) :
    Fits bound (replace t bound old new set) := by
  unfold replace
  split
  · exact fits_insert new fun count hcount =>
      Nat.le_trans List.erase_sublist.length_le (hfits count hcount)
  · exact hfits

/-- An insertion that pushes nothing out leaves two members that look the same side by side. -/
theorem apart_insert_iff {bound : Option Nat}
    (hroom : ∀ count, bound = some count → set.length < count) :
    Apart t (insert t bound id set) ↔ Apart t set := by
  refine ⟨fun hresult => ?_, fun hset => hset.insert id⟩
  have houtcome := insert_outcome t bound id set
  generalize insert t bound id set = result at houtcome hresult
  cases houtcome with
  | present => exact hresult
  | shadowed => exact hresult
  | placed =>
      have hfits : Fits bound (put t id set) := by
        intro count hcount
        rw [length_put]
        exact hroom count hcount
      rw [best_of_fits hfits, apart_put, apart_cons] at hresult
      exact hresult.2
  | replaced other hother hlook =>
      have hfits : Fits bound (put t id (set.erase other)) := by
        intro count hcount
        have hlt := hroom count hcount
        rw [length_put, List.length_erase_of_mem hother]
        omega
      rwa [best_of_fits hfits, apart_put, apart_cons_erase hother hlook] at hresult

end Ranked

end PrefixSearch
