import Mathlib.Data.List.Perm.Subperm
import PrefixSearch.Proofs.RankedSet

/-!
# Bounded sets

A bounded set is the front of the set that has no bound, unless it forgets a result and then takes
in one that looks the same.  `Settled` excludes exactly that, and it is what the order of insertions
being irrelevant comes to.  It holds where ranks follow IDs, so that a result that was pushed over
the bound stays there, and where the bound is not reached at all.

Without it a bounded set may hold other results than the front, and only its length is certain: it
is full or has a member for every look that was put into it.
-/

namespace PrefixSearch

namespace Ranked

open ResultTable

variable {t : ResultTable} {id other : Id} {set : List Id}

/-! ## Results that stand in each other's way -/

/-- The results `others` push `a` out of a set.  Then `b`, which looks the same and has a higher
ID, is no longer kept out by `a`, and it ranks before one of them. -/
structure Strands (t : ResultTable) (P : Id → Prop) (a b : Id) (others : List Id) : Prop where
  left : P a
  right : P b
  holds : ∀ x ∈ others, P x
  look_eq : t.look a = t.look b
  lt : a < b
  apart : Apart t (a :: others)
  before : ∀ x ∈ others, t.RanksBefore x a
  between : ∃ x ∈ others, t.RanksBefore b x

/-- No result is pushed out of a set of `count` while one that looks the same would come in. -/
def Settled (t : ResultTable) (count : Nat) (P : Id → Prop) : Prop :=
  ∀ a b others, Strands t P a b others → others.length ≠ count

theorem Settled.mono {P Q : Id → Prop} {count : Nat} (hQ : Settled t count Q)
    (hPQ : ∀ id, P id → Q id) : Settled t count P := by
  intro a b others hstrands
  exact hQ a b others
    { hstrands with
      left := hPQ a hstrands.left
      right := hPQ b hstrands.right
      holds := fun x hx => hPQ x (hstrands.holds x hx) }

/-- Where ranks follow IDs, nothing comes in behind the result that hides it. -/
theorem settled_of_ranksFollowIds {P : Id → Prop} (count : Nat) (hranks : t.RanksFollowIds P) :
    Settled t count P := by
  intro a b others hstrands
  obtain ⟨x, hx, hbetween⟩ := hstrands.between
  have hab : t.RanksBefore a b := hranks a b hstrands.left hstrands.right
    (sameTarget_iff.mpr hstrands.look_eq) hstrands.lt
  have hba : t.RanksBefore b a := hbetween.trans (hstrands.before x hx)
  exact absurd hba hab.asymm

/-! ## Bounded sets as fronts of unbounded ones -/

theorem take_place_of_behind {count : Nat} (hlength : count ≤ set.length)
    (hbefore : ∀ x ∈ set.take count, t.RanksBefore x id) :
    (place t id (set.take count)).take count = set.take count := by
  have htake : (set.take count).length = count := by
    rw [List.length_take, Nat.min_eq_left hlength]
  rw [place_of_all_before hbefore, List.take_left' htake]

theorem before_of_mem_take_of_mem_drop {count : Nat} (hset : set.Pairwise t.RanksBefore)
    (hother : other ∈ set.drop count) : ∀ x ∈ set.take count, t.RanksBefore x other := by
  intro x hx
  rw [← List.take_append_drop count set, List.pairwise_append] at hset
  exact hset.2.2 x hx other hother

theorem le_length_of_mem_drop {count : Nat} (hother : other ∈ set.drop count) :
    count ≤ set.length := by
  have hpos := List.length_pos_of_mem hother
  rw [List.length_drop] at hpos
  omega

theorem erase_eq_take_append {count : Nat} (hother : other ∉ set.take count) :
    set.erase other = set.take count ++ (set.drop count).erase other := by
  conv_lhs => rw [← List.take_append_drop count set]
  exact List.erase_append_right _ hother

/-- What ranks behind a new result cannot be pulled over the bound when the result takes the place
of another one. -/
theorem take_place_erase {count : Nat} (hother : other ∈ set.take count)
    (hbehind : ∀ x ∈ set.drop count, ¬ t.RanksBefore x id) :
    (place t id ((set.take count).erase other)).take count =
      (place t id (set.erase other)).take count := by
  have hsplit : set.erase other = (set.take count).erase other ++ set.drop count := by
    conv_lhs => rw [← List.take_append_drop count set]
    exact List.erase_append_left _ hother
  rw [hsplit, place_append_of_not_before hbehind]
  by_cases hdrop : set.drop count = []
  · rw [hdrop, List.append_nil]
  · have hlength : (place t id ((set.take count).erase other)).length = count := by
      have herase := List.length_erase_add_one hother
      rw [List.drop_eq_nil_iff] at hdrop
      rw [length_place, herase, List.length_take]
      omega
    rw [List.take_append_of_le_length (Nat.le_of_eq hlength.symm)]

/-- A result behind the cut that ranks before a new one strands it, if the new one takes the place
of a result before the cut. -/
theorem strands_of_cut {P : Id → Prop} {count : Nat} {x : Id} (hset : set.Pairwise t.RanksBefore)
    (hapart : Apart t set) (hother : other ∈ set.take count) (hx : x ∈ set.drop count)
    (hlook : t.look other = t.look id) (hlt : id < other) (hbefore : t.RanksBefore x id)
    (hid : P id) (hholds : ∀ y ∈ set, P y) :
    Strands t P id other (x :: (set.take count).erase other) := by
  have hcut : ∀ y ∈ set.take count, t.RanksBefore y x := before_of_mem_take_of_mem_drop hset hx
  have herase : ∀ y ∈ (set.take count).erase other, y ∈ set.take count := fun y hy =>
    List.mem_of_mem_erase hy
  have hnodup : (set.take count).Nodup := (nodup_of_ranked hset).sublist (List.take_sublist _ _)
  have hsub : ∀ y ∈ x :: (set.take count).erase other, y ∈ set ∧ y ≠ other := by
    intro y hy
    rcases List.mem_cons.mp hy with rfl | hy
    · exact ⟨List.mem_of_mem_drop hx, (hcut other hother).ne.symm⟩
    · exact ⟨List.mem_of_mem_take (herase y hy), (hnodup.mem_erase_iff.mp hy).1⟩
  refine
    { left := hid
      right := hholds other (List.mem_of_mem_take hother)
      holds := fun y hy => hholds y (hsub y hy).1
      look_eq := hlook.symm
      lt := hlt
      apart := apart_cons.mpr ⟨?_, hapart.of_subset (fun y hy => (hsub y hy).1) ?_⟩
      before := ?_
      between := ⟨x, List.mem_cons_self, hcut other hother⟩ }
  · intro y hy hylook
    exact (hsub y hy).2 (hapart.eq_of_look (hsub y hy).1 (List.mem_of_mem_take hother)
      (hylook.trans hlook.symm))
  · rw [List.nodup_cons]
    exact ⟨fun hmem => (hcut x (herase x hmem)).ne rfl, hnodup.erase other⟩
  · intro y hy
    rcases List.mem_cons.mp hy with rfl | hy
    · exact hbefore
    · exact (hcut y (herase y hy)).trans hbefore

/-- A result behind the cut does not keep a new one out.  So it is stranded if the new one ranks
before a result before the cut. -/
theorem strands_of_drop {P : Id → Prop} {count : Nat} {x : Id} (hset : set.Pairwise t.RanksBefore)
    (hapart : Apart t set) (hother : other ∈ set.drop count) (hx : x ∈ set.take count)
    (hlook : t.look other = t.look id) (hlt : other < id) (hbefore : t.RanksBefore id x)
    (hid : P id) (hholds : ∀ y ∈ set, P y) :
    Strands t P other id (set.take count) := by
  have hcut := before_of_mem_take_of_mem_drop hset hother
  have hmem : other ∈ set := List.mem_of_mem_drop hother
  have hmemTake : ∀ y ∈ set.take count, y ∈ set := fun y hy => List.mem_of_mem_take hy
  have hapartTake : Apart t (set.take count) :=
    hapart.sublist ((List.take_sublist count set).map t.look)
  refine
    { left := hholds other hmem
      right := hid
      holds := fun y hy => hholds y (hmemTake y hy)
      look_eq := hlook
      lt := hlt
      apart := apart_cons.mpr ⟨?_, hapartTake⟩
      before := hcut
      between := ⟨x, hx, hbefore⟩ }
  intro y hy hylook
  exact (hcut y hy).ne (hapart.eq_of_look (hmemTake y hy) hmem hylook)

/-! ## Sets with a member for every look -/

/-- The set has a member for the look of every result with the property. -/
def Covers (t : ResultTable) (P : Id → Prop) (set : List Id) : Prop :=
  ∀ x, P x → ∃ y ∈ set, t.look y = t.look x

theorem length_eq_lookCount {ids : List Id} (hapart : Apart t set) (hsub : ∀ x ∈ set, x ∈ ids)
    (hcovers : Covers t (· ∈ ids) set) : set.length = t.lookCount ids := by
  have hperm : (set.map t.look).Perm (ids.map t.look).dedup := by
    rw [List.perm_ext_iff_of_nodup hapart (List.nodup_dedup _)]
    intro look
    rw [List.mem_dedup, List.mem_map, List.mem_map]
    constructor
    · rintro ⟨x, hx, rfl⟩
      exact ⟨x, hsub x hx, rfl⟩
    · rintro ⟨x, hx, rfl⟩
      exact hcovers x hx
  rw [lookCount, ← hperm.length_eq, List.length_map]

theorem length_le_lookCount {ids : List Id} (hapart : Apart t set) (hsub : ∀ x ∈ set, x ∈ ids) :
    set.length ≤ t.lookCount ids := by
  have hsubset : set.map t.look ⊆ (ids.map t.look).dedup := by
    intro look hlook
    obtain ⟨x, hx, rfl⟩ := List.mem_map.mp hlook
    exact List.mem_dedup.mpr (List.mem_map_of_mem (hsub x hx))
  have hlength := hapart.length_le_of_subset hsubset
  rwa [List.length_map] at hlength

/-- There is one lowest result for every look. -/
theorem length_of_lists_lowest {ids : List Id} (hset : t.Lists (t.Lowest (· ∈ ids)) set) :
    set.length = t.lookCount ids := by
  refine length_eq_lookCount (apart_of_lowest hset) (fun x hx => ((hset.mem_iff x).mp hx).1) ?_
  intro x hx
  obtain ⟨low, hlow, hlook⟩ := exists_lowest x hx
  exact ⟨low, (hset.mem_iff low).mpr hlow, hlook⟩

/-! ## Insertions into bounded sets -/

variable [Search]

/-- Cutting the list of the lowest results and then inserting is inserting and then cutting. -/
theorem insert_take {P : Id → Prop} {count : Nat} (hset : t.Lists (t.Lowest P) set)
    (hsettled : Settled t count fun x => P x ∨ x = id) :
    insert t (some count) id (set.take count) = (insert t none id set).take count := by
  have hapart : Apart t set := apart_of_lowest hset
  have hapartTake : Apart t (set.take count) :=
    hapart.sublist ((List.take_sublist count set).map t.look)
  have hholds : ∀ x ∈ set, P x := fun x hx => ((hset.mem_iff x).mp hx).1
  have hmemTake : ∀ x ∈ set.take count, x ∈ set := fun x hx => List.mem_of_mem_take hx
  have hrankedTake : (set.take count).Pairwise t.RanksBefore :=
    hset.ranked.sublist (List.take_sublist count set)
  -- A member behind the cut is the only one of its look, so the new ID meets none before the cut.
  have hfreshTake : ∀ y ∈ set, y ∉ set.take count → t.look y = t.look id →
      ∀ x ∈ set.take count, t.look x ≠ t.look id := by
    intro y hy hcut hlook x hx hxlook
    have heq : x = y := hapart.eq_of_look (hmemTake x hx) hy (hxlook.trans hlook.symm)
    exact hcut (heq ▸ hx)
  have hmemDrop : ∀ y ∈ set, y ∉ set.take count → y ∈ set.drop count := by
    intro y hy hcut
    rw [← List.take_append_drop count set, List.mem_append] at hy
    exact hy.resolve_left hcut
  have houtcome := insert_outcome t none id set
  generalize insert t none id set = result at houtcome
  cases houtcome with
  | present hmem =>
      by_cases hcut : id ∈ set.take count
      · rw [insert_of_mem hcut]
      · have hdrop := hmemDrop id hmem hcut
        rw [insert_of_fresh (hfreshTake id hmem hcut rfl), best_some, put_eq_place hrankedTake,
          take_place_of_behind (le_length_of_mem_drop hdrop)
            (before_of_mem_take_of_mem_drop hset.ranked hdrop)]
  | shadowed other hother hlook hlt =>
      by_cases hcut : other ∈ set.take count
      · rw [insert_of_shadowed hapartTake hcut hlook hlt]
      · have hdrop := hmemDrop other hother hcut
        have hfresh := hfreshTake other hother hcut hlook
        have hlength := le_length_of_mem_drop hdrop
        have hbefore := before_of_mem_take_of_mem_drop hset.ranked hdrop
        rw [insert_of_fresh hfresh, best_some, put_eq_place hrankedTake,
          take_place_of_behind hlength]
        -- Otherwise the new ID would come in although the members before the cut hide its look.
        intro x hx
        have hne : x ≠ id := fun heq => hfresh x hx (heq ▸ rfl)
        refine ranksBefore_of_not_ranksBefore hne fun hbetween => ?_
        refine hsettled other id (set.take count) ?_
          (by rw [List.length_take, Nat.min_eq_left hlength])
        exact strands_of_drop hset.ranked hapart hdrop hx hlook hlt hbetween (Or.inr rfl)
          fun y hy => Or.inl (hholds y hy)
  | placed hfresh =>
      rw [insert_of_fresh fun x hx => hfresh x (hmemTake x hx), best_some, best_none,
        put_eq_place hrankedTake, put_eq_place hset.ranked, take_place]
  | replaced other hother hlook hlt hmem =>
      rw [best_none, put_eq_place (hset.ranked.sublist List.erase_sublist)]
      by_cases hcut : other ∈ set.take count
      · rw [insert_of_replaced hapartTake hcut hlook hlt, best_some,
          put_eq_place (hrankedTake.sublist List.erase_sublist), take_place_erase hcut]
        -- Otherwise the members before the cut and `x` would push the new ID out.
        intro x hx hbefore
        have hlength : (x :: (set.take count).erase other).length = count := by
          rw [List.length_cons, List.length_erase_add_one hcut, List.length_take,
            Nat.min_eq_left (le_length_of_mem_drop hx)]
        refine hsettled id other _ ?_ hlength
        exact strands_of_cut hset.ranked hapart hcut hx hlook hlt hbefore (Or.inr rfl)
          fun y hy => Or.inl (hholds y hy)
      · have hlength := le_length_of_mem_drop (hmemDrop other hother hcut)
        have htake : (set.take count).length = count := by
          rw [List.length_take, Nat.min_eq_left hlength]
        rw [insert_of_fresh (hfreshTake other hother hcut hlook), best_some,
          put_eq_place hrankedTake, ← take_place t id count (set.erase other), erase_eq_take_append hcut,
          List.take_left' htake]

theorem insertAll_take {P : Id → Prop} {count : Nat} (ids : List Id)
    (hset : t.Lists (t.Lowest P) set) (hsettled : Settled t count fun x => P x ∨ x ∈ ids) :
    insertAll t (some count) ids (set.take count) = (insertAll t none ids set).take count := by
  induction ids generalizing P set with
  | nil => rfl
  | cons head ids ih =>
      have hhead : Settled t count fun x => P x ∨ x = head := by
        refine hsettled.mono fun x hx => ?_
        rcases hx with hx | rfl
        · exact Or.inl hx
        · exact Or.inr List.mem_cons_self
      rw [insertAll_cons, insertAll_cons, insert_take hset hhead]
      refine ih (lists_lowest_insert hset) (hsettled.mono fun x hx => ?_)
      simpa only [List.mem_cons, or_assoc] using hx

/-- Unless results stand in each other's way, a bounded set is the front of the list of the lowest
results. -/
theorem insertAll_some_eq_take {count : Nat} {ids : List Id}
    (hsettled : Settled t count (· ∈ ids)) :
    insertAll t (some count) ids [] = (insertAll t none ids []).take count := by
  have htake := insertAll_take ids (lists_lowest_nil (t := t))
    (hsettled.mono fun x hx => by simpa using hx)
  simpa using htake

/-! ## Merging sets -/

/-- Putting the members of a set behind better ones, in their order, appends them. -/
theorem insertAll_append_of_ranked {bound : Option Nat} (front back : List Id)
    (hranked : (front ++ back).Pairwise t.RanksBefore) (hapart : Apart t (front ++ back))
    (hfits : Fits bound (front ++ back)) : insertAll t bound back front = front ++ back := by
  induction back generalizing front with
  | nil => simp
  | cons head back ih =>
      have hstep : insert t bound head front = front ++ [head] := by
        obtain ⟨hfront, -, hacross⟩ := List.pairwise_append.mp hranked
        have hbefore : ∀ x ∈ front, t.RanksBefore x head := fun x hx =>
          hacross x hx head List.mem_cons_self
        have hfresh : ∀ x ∈ front, t.look x ≠ t.look head := by
          intro x hx hlook
          have heq : x = head := hapart.eq_of_look (List.mem_append_left _ hx)
            (List.mem_append_right _ List.mem_cons_self) hlook
          exact (hbefore x hx).ne heq
        have hfitsFront : Fits bound (front ++ [head]) := by
          intro count hcount
          have hall := hfits count hcount
          simp only [List.length_append, List.length_cons, List.length_nil] at hall ⊢
          omega
        rw [insert_of_fresh hfresh, put_eq_place hfront, place_of_all_before hbefore,
          best_of_fits hfitsFront]
      have hassoc : front ++ head :: back = (front ++ [head]) ++ back := by simp
      rw [hassoc] at hranked hapart hfits ⊢
      rw [insertAll_cons, hstep, ih (front ++ [head]) hranked hapart hfits]

/-- Putting the members of a set into an empty one gives the set again. -/
theorem insertAll_insertAll_nil (t : ResultTable) (bound : Option Nat) (ids : List Id) :
    insertAll t bound (insertAll t bound ids []) [] = insertAll t bound ids [] := by
  obtain ⟨hranked, hapart⟩ := ranked_apart_insertAll t bound ids
  have hempty : Fits bound [] := fun count _ => Nat.zero_le count
  have hfits : Fits bound (insertAll t bound ids []) := fits_insertAll ids hempty
  have happend := insertAll_append_of_ranked [] (insertAll t bound ids [])
    (by simpa using hranked) (by simpa using hapart) (by simpa using hfits)
  simpa using happend

/-- The order in which results from a list are put into a set does not count. -/
def OrderIrrelevant (t : ResultTable) (bound : Option Nat) (ids : List Id) : Prop :=
  ∀ left right : List Id, (∀ x ∈ left, x ∈ ids) → (∀ x, x ∈ left ↔ x ∈ right) →
    insertAll t bound left [] = insertAll t bound right []

theorem OrderIrrelevant.mono {bound : Option Nat} {ids fewer : List Id}
    (hids : OrderIrrelevant t bound ids) (hsub : ∀ x ∈ fewer, x ∈ ids) :
    OrderIrrelevant t bound fewer :=
  fun left right hleft hmem => hids left right (fun x hx => hsub x (hleft x hx)) hmem

theorem orderIrrelevant_none (t : ResultTable) (ids : List Id) : OrderIrrelevant t none ids := by
  intro left right _ hmem
  have hright := (lists_lowest_insertAll t right).congr (lowest_congr fun x => (hmem x).symm)
  exact (lists_lowest_insertAll t left).unique hright

theorem orderIrrelevant_some {count : Nat} {ids : List Id} (hsettled : Settled t count (· ∈ ids)) :
    OrderIrrelevant t (some count) ids := by
  intro left right hsub hmem
  have hleft : Settled t count (· ∈ left) := hsettled.mono hsub
  have hright : Settled t count (· ∈ right) :=
    hleft.mono fun x hx => (hmem x).mpr hx
  rw [insertAll_some_eq_take hleft, insertAll_some_eq_take hright,
    orderIrrelevant_none t ids left right hsub hmem]

/-- Where the order does not count, putting one set into another is putting in all that was put
into either. -/
theorem insertAll_insertAll {bound : Option Nat} {left right : List Id}
    (horder : OrderIrrelevant t bound (left ++ right)) :
    insertAll t bound (insertAll t bound right []) (insertAll t bound left []) =
      insertAll t bound (left ++ right) [] := by
  let set := insertAll t bound right []
  have hset : ∀ x ∈ set, x ∈ right := by
    intro x hx
    simpa using mem_of_mem_insertAll hx
  have hsub : ∀ x ∈ left ++ set, x ∈ left ++ right := by
    intro x hx
    rw [List.mem_append] at hx ⊢
    exact hx.imp_right (hset x)
  have hswap : ∀ (a b : List Id) (x : Id), x ∈ a ++ b ↔ x ∈ b ++ a := by
    intro a b x
    rw [List.mem_append, List.mem_append, or_comm]
  calc insertAll t bound set (insertAll t bound left [])
      = insertAll t bound (left ++ set) [] := (insertAll_append left set).symm
    _ = insertAll t bound (set ++ left) [] := horder _ _ hsub (hswap left set)
    _ = insertAll t bound left (insertAll t bound set []) := insertAll_append set left
    _ = insertAll t bound left (insertAll t bound right []) := by
        rw [insertAll_insertAll_nil]
    _ = insertAll t bound (right ++ left) [] := (insertAll_append right left).symm
    _ = insertAll t bound (left ++ right) [] :=
        (horder _ _ (fun _ hx => hx) (hswap left right)).symm

/-! ## How many members a bounded set has -/

/-- A set that is not full forgets no look. -/
theorem full_or_covers_insert {P : Id → Prop} {count : Nat} (id : Id) (hfits : set.length ≤ count)
    (hfull : set.length = count ∨ Covers t P set) :
    (insert t (some count) id set).length = count ∨
      Covers t (fun x => P x ∨ x = id) (insert t (some count) id set) := by
  have houtcome := insert_outcome t (some count) id set
  generalize insert t (some count) id set = result at houtcome
  -- only a set that is full already can lose a member
  cases houtcome with
  | present hmem =>
      refine hfull.imp_right fun hcovers => ?_
      rintro x (hx | rfl)
      · exact hcovers x hx
      · exact ⟨x, hmem, rfl⟩
  | shadowed other hother hlook =>
      refine hfull.imp_right fun hcovers => ?_
      rintro x (hx | rfl)
      · exact hcovers x hx
      · exact ⟨other, hother, hlook⟩
  | placed =>
      rw [best_some]
      by_cases hroom : set.length = count
      · left
        rw [List.length_take, length_put]
        omega
      · right
        have hcovers := hfull.resolve_left hroom
        have hall : (put t id set).take count = put t id set := by
          apply List.take_of_length_le
          rw [length_put]
          omega
        rw [hall]
        rintro x (hx | rfl)
        · obtain ⟨y, hy, hlook⟩ := hcovers x hx
          exact ⟨y, mem_put.mpr (Or.inr hy), hlook⟩
        · exact ⟨x, mem_put.mpr (Or.inl rfl), rfl⟩
  | replaced other hother hlook =>
      have hlength : (set.erase other).length + 1 = set.length :=
        List.length_erase_add_one hother
      have hall : (put t id (set.erase other)).take count = put t id (set.erase other) := by
        apply List.take_of_length_le
        rw [length_put]
        omega
      rw [best_some, hall, length_put, hlength]
      refine hfull.imp_right fun hcovers => ?_
      rintro x (hx | rfl)
      · obtain ⟨y, hy, hyx⟩ := hcovers x hx
        by_cases heq : y = other
        · exact ⟨id, mem_put.mpr (Or.inl rfl), hlook.symm.trans (heq ▸ hyx)⟩
        · exact ⟨y, mem_put.mpr (Or.inr ((List.mem_erase_of_ne heq).mpr hy)), hyx⟩
      · exact ⟨x, mem_put.mpr (Or.inl rfl), rfl⟩

theorem full_or_covers_insertAll {P : Id → Prop} {count : Nat} (ids : List Id)
    (hfits : set.length ≤ count) (hfull : set.length = count ∨ Covers t P set) :
    (insertAll t (some count) ids set).length = count ∨
      Covers t (fun x => P x ∨ x ∈ ids) (insertAll t (some count) ids set) := by
  induction ids generalizing P set with
  | nil => simpa using hfull
  | cons head ids ih =>
      have hbound : Fits (some count) set := by
        rintro _ ⟨rfl⟩
        exact hfits
      rw [insertAll_cons]
      have hrest := ih (fits_insert head hbound count rfl)
        (full_or_covers_insert head hfits hfull)
      simpa only [List.mem_cons, or_assoc] using hrest

/-- The number of members is the number of looks that were put in, but at most the bound. -/
theorem length_insertAll (t : ResultTable) (count : Nat) (ids : List Id) :
    (insertAll t (some count) ids []).length = min count (t.lookCount ids) := by
  obtain ⟨-, hapart⟩ := ranked_apart_insertAll t (some count) ids
  have hsub : ∀ x ∈ insertAll t (some count) ids [], x ∈ ids := by
    intro x hx
    simpa using mem_of_mem_insertAll hx
  have hempty : Fits (some count) [] := fun _ _ => Nat.zero_le _
  have hlength := fits_insertAll (t := t) ids hempty count rfl
  have hle := length_le_lookCount hapart hsub
  have hnil : ([] : List Id).length = count ∨ Covers t (fun _ => False) [] :=
    Or.inr fun _ hx => hx.elim
  rcases full_or_covers_insertAll ids (Nat.zero_le count) hnil with hfull | hcovers
  · omega
  · have heq := length_eq_lookCount hapart hsub (by simpa using hcovers)
    omega

/-! ## When the order of insertions counts -/

theorem length_insertAll_of_apart {ids : List Id} (hids : Apart t ids) :
    (insertAll t (some ids.length) ids []).length = ids.length := by
  rw [length_insertAll, ResultTable.lookCount, hids.dedup, List.length_map, Nat.min_self]

/-- As many results of different looks as fit are all kept. -/
theorem mem_insertAll_of_apart {ids : List Id} (hids : Apart t ids) (hid : id ∈ ids) :
    id ∈ insertAll t (some ids.length) ids [] := by
  have hnodup : (insertAll t (some ids.length) ids []).Nodup :=
    nodup_of_ranked (ranked_apart_insertAll t (some ids.length) ids).1
  have hsub : insertAll t (some ids.length) ids [] ⊆ ids := by
    intro x hx
    simpa using mem_of_mem_insertAll hx
  have hperm := (List.subperm_of_subset hnodup hsub).perm_of_length_le
    (Nat.le_of_eq (length_insertAll_of_apart hids).symm)
  exact hperm.mem_iff.mpr hid

/-- Results in each other's way make the order count: if `a` comes after the others, `b` gets in,
and if `a` comes first, it does not. -/
theorem Strands.insertAll_ne {P : Id → Prop} {a b : Id} {others : List Id}
    (hstrands : Strands t P a b others) :
    insertAll t (some others.length) (others ++ [a, b]) [] ≠
      insertAll t (some others.length) (a :: b :: others) [] := by
  obtain ⟨hfresh, hapart⟩ := apart_cons.mp hstrands.apart
  obtain ⟨x, hx, hbetween⟩ := hstrands.between
  have hpos : 0 < others.length := List.length_pos_of_mem hx
  have hlate : b ∈ insertAll t (some others.length) (others ++ [a, b]) [] := by
    let set := insertAll t (some others.length) others []
    have hset : ∀ y ∈ set, y ∈ others := by
      intro y hy
      simpa using mem_of_mem_insertAll hy
    have hlength : set.length = others.length := length_insertAll_of_apart hapart
    have hranked : set.Pairwise t.RanksBefore :=
      (ranked_apart_insertAll t (some others.length) others).1
    have ha : insert t (some others.length) a set = set := by
      rw [insert_of_fresh fun y hy => hfresh y (hset y hy), best_some, put_eq_place hranked,
        place_of_all_before fun y hy => hstrands.before y (hset y hy), List.take_left' hlength]
    have hb : b ∈ insert t (some others.length) b set := by
      rw [insert_of_fresh fun y hy => hstrands.look_eq ▸ hfresh y (hset y hy), best_some,
        put_eq_place hranked, ← hlength]
      exact mem_take_place (mem_insertAll_of_apart hapart hx) hbetween
    rw [insertAll_append, insertAll_cons, insertAll_cons, insertAll_nil]
    show b ∈ insert t (some others.length) b (insert t (some others.length) a set)
    rwa [ha]
  have hearly : b ∉ insertAll t (some others.length) (a :: b :: others) [] := by
    have ha : insert t (some others.length) a [] = [a] := by
      rw [insert_of_fresh fun y hy => absurd hy List.not_mem_nil, best_some,
        put_eq_place List.Pairwise.nil, place_nil]
      exact List.take_of_length_le hpos
    have hb : insert t (some others.length) b [a] = [a] :=
      insert_of_shadowed (List.nodup_singleton _) List.mem_cons_self hstrands.look_eq hstrands.lt
    rw [insertAll_cons, insertAll_cons, ha, hb]
    intro hmem
    rcases mem_of_mem_insertAll hmem with hothers | hsame
    · exact hfresh b hothers hstrands.look_eq.symm
    · exact Nat.ne_of_gt hstrands.lt (List.mem_singleton.mp hsame)
  intro heq
  exact hearly (heq ▸ hlate)

/-- The order in which results are put into a bounded set is irrelevant exactly if none of them
stand in each other's way. -/
theorem orderIrrelevant_some_iff {count : Nat} {ids : List Id} :
    OrderIrrelevant t (some count) ids ↔ Settled t count (· ∈ ids) := by
  refine ⟨?_, orderIrrelevant_some⟩
  rintro horder a b others hstrands rfl
  refine hstrands.insertAll_ne (horder _ _ ?_ ?_)
  · intro x hx
    simp only [List.mem_append, List.mem_cons, List.not_mem_nil, or_false] at hx
    rcases hx with hx | rfl | rfl
    · exact hstrands.holds x hx
    · exact hstrands.left
    · exact hstrands.right
  · intro x
    simp only [List.mem_append, List.mem_cons, List.not_mem_nil, or_false]
    rw [or_comm, or_assoc]

end Ranked

end PrefixSearch
