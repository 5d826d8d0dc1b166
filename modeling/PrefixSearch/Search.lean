import PrefixSearch.Rank

/-!
# Searching a set

A result is put into a set where a search for the end of the results that rank before it ends. In a
set in rank order every search ends there. A merge may leave a set that is not in rank order, and
where a search ends in such a set depends on the order in which it looks at the members.

The index is built with any search, so that what is proved of it depends on no such order. The
program halves the set.
-/

namespace PrefixSearch

/-- A search for the spot of a result in a set. If the results that rank before it come first, it
ends behind them, and otherwise it may end anywhere. -/
class Search where
  spot : ResultTable → Id → List Id → Nat
  spot_of_split : ∀ t id front back, (∀ other ∈ front, t.rankKey other < t.rankKey id) →
    (∀ other ∈ back, ¬ t.rankKey other < t.rankKey id) → spot t id (front ++ back) = front.length

namespace Search

/-- Halve the rest of a set of `size` members from `base` on, in at most `budget` steps. -/
def halve (ahead : Nat → Bool) : (budget size base : Nat) → Nat
  | 0, _, base => base + (ahead base).toNat
  | budget + 1, size, base =>
      if size ≤ 1 then
        base + (ahead base).toNat
      else
        halve ahead budget (size - size / 2)
          (if ahead (base + size / 2) then base + size / 2 else base)

/-- Halving finds the place up to which everything is ahead. -/
theorem halve_eq {ahead : Nat → Bool} {stop : Nat} (hahead : ∀ i, ahead i = decide (i < stop))
    {budget size base : Nat} (hbudget : size ≤ budget + 1) (hbase : base ≤ stop)
    (hstop : stop ≤ base + size) : halve ahead budget size base = stop := by
  have hend : ∀ base size, size ≤ 1 → base ≤ stop → stop ≤ base + size →
      base + (ahead base).toNat = stop := by
    intro base size hsize hbase hstop
    rw [hahead]
    by_cases hlt : base < stop
    · rw [decide_eq_true hlt, Bool.toNat_true]
      omega
    · rw [decide_eq_false hlt, Bool.toNat_false]
      omega
  -- the place stays in the rest of the set, and a rest of one member ends the search
  induction budget generalizing size base with
  | zero => exact hend base size hbudget hbase hstop
  | succ budget ih =>
      unfold halve
      split
      · next hsize => exact hend base size hsize hbase hstop
      · next hsize =>
        rw [hahead]
        by_cases hlt : base + size / 2 < stop
        · rw [if_pos (decide_eq_true hlt)]
          exact ih (by omega) (by omega) (by omega)
        · rw [if_neg (by simpa using hlt)]
          exact ih (by omega) (by omega) (by omega)

/-- The search of the program, which halves the set. -/
instance halves : Search where
  spot t id set := halve (fun i => set[i]?.any fun other => decide (t.rankKey other < t.rankKey id))
    set.length set.length 0
  spot_of_split t id front back hfront hback := by
    refine halve_eq (fun i => ?_) (Nat.le_succ _) (Nat.zero_le _) (by simp)
    rcases Nat.lt_or_ge i front.length with hi | hi
    · rw [List.getElem?_append_left hi, List.getElem?_eq_getElem hi, decide_eq_true hi]
      exact decide_eq_true (hfront _ (List.getElem_mem hi))
    · rw [List.getElem?_append_right hi, decide_eq_false (Nat.not_lt.mpr hi)]
      cases hother : back[i - front.length]? with
      | none => rfl
      | some other => exact decide_eq_false (hback other (List.mem_of_getElem? hother))

end Search

end PrefixSearch
