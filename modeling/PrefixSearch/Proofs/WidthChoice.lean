import Mathlib.Algebra.Group.Nat.Defs
import PrefixSearch.Frozen
import PrefixSearch.Proofs.Bytes.Fields
import PrefixSearch.Proofs.Runs

/-!
# The narrowest widths are chosen

The widths of a class are listed narrowest first, so the first one that is at least the configured minimum
and suffices is the narrowest of these.  Whether there is one depends on the widest of the class only.
-/

namespace PrefixSearch

theorem Bytes.capacity_pos (width : Nat) : 0 < capacity width := by
  induction width with
  | zero => exact Nat.one_pos
  | succ width ih =>
      show 0 < 256 * capacity width
      omega

namespace WidthClass

variable {α : Type} [WidthClass α] {least w other : α} {enough : α → Prop} {value : Nat}

/-- The widths of the class are listed narrowest first, and none is missing. -/
class Ordered (α : Type) [WidthClass α] : Prop where
  mem_all : ∀ w : α, w ∈ (all : List α)
  sorted : (all : List α).Pairwise fun v w => bytes v < bytes w

instance : Ordered NameWidth where
  mem_all w := by cases w <;> decide
  sorted := by decide

instance : Ordered IdWidth where
  mem_all w := by cases w <;> decide
  sorted := by decide

instance : Ordered OffsetWidth where
  mem_all w := by cases w <;> decide
  sorted := by decide

/-- The width is enough, and of those that are enough and at least `least`, it is the narrowest. -/
structure Narrowest (least : α) (enough : α → Prop) (w : α) : Prop where
  least_le : bytes least ≤ bytes w
  is_enough : enough w
  le_of_enough : ∀ other, bytes least ≤ bytes other → enough other → bytes w ≤ bytes other

theorem le_maxValue_iff : value ≤ maxValue w ↔ value < Bytes.capacity (bytes w) := by
  have hpos := Bytes.capacity_pos (bytes w)
  unfold maxValue
  omega

theorem maxValue_eq (w : α) : maxValue w = 2 ^ bits w - 1 := by
  rw [maxValue, Bytes.capacity_eq, bits]

section

variable [Ordered α]

/-- The widths listed before a width are narrower than it, and the ones behind it are wider. -/
theorem Ordered.sides {before after : List α} (hall : (all : List α) = before ++ w :: after)
    (other : α) :
    other ∈ before ∧ bytes other < bytes w ∨ other = w ∨ bytes w < bytes other := by
  have hsorted := Ordered.sorted (α := α)
  have hmem := Ordered.mem_all other
  rw [hall] at hsorted hmem
  obtain ⟨-, hback, hacross⟩ := List.pairwise_append.mp hsorted
  rcases List.mem_append.mp hmem with hbefore | hrest
  · exact Or.inl ⟨hbefore, hacross other hbefore w List.mem_cons_self⟩
  · rcases List.mem_cons.mp hrest with rfl | hafter
    · exact Or.inr (Or.inl rfl)
    · exact Or.inr (Or.inr ((List.pairwise_cons.mp hback).1 other hafter))

theorem eq_of_bytes_eq (hbytes : bytes w = bytes other) : w = other := by
  obtain ⟨before, after, hall⟩ := List.append_of_mem (Ordered.mem_all w)
  rcases Ordered.sides hall other with ⟨-, hlt⟩ | rfl | hlt
  · exact absurd hbytes (Nat.ne_of_gt hlt)
  · rfl
  · exact absurd hbytes (Nat.ne_of_lt hlt)

theorem Narrowest.unique (h : Narrowest least enough w) (hother : Narrowest least enough other) :
    w = other :=
  eq_of_bytes_eq (Nat.le_antisymm (h.le_of_enough other hother.least_le hother.is_enough)
    (hother.le_of_enough w h.least_le h.is_enough))

variable [DecidablePred enough]

theorem narrowest_of_find?
    (hfind : (all : List α).find? (fun w => bytes least ≤ bytes w && enough w) = some w) :
    Narrowest least enough w := by
  obtain ⟨henough, before, after, hall, hbefore⟩ := List.find?_eq_some_iff_append.mp hfind
  rw [Bool.and_eq_true, decide_eq_true_eq, decide_eq_true_eq] at henough
  refine ⟨henough.1, henough.2, fun other hleast hother => ?_⟩
  rcases Ordered.sides hall other with ⟨hskipped, -⟩ | rfl | hwider
  · have hnot := hbefore other hskipped
    simp [hleast, hother] at hnot
  · exact Nat.le_refl _
  · exact Nat.le_of_lt hwider

/-- The first width of the list that will do is the narrowest. -/
theorem find?_eq_some_iff :
    (all : List α).find? (fun w => bytes least ≤ bytes w && enough w) = some w ↔
      Narrowest least enough w := by
  refine ⟨narrowest_of_find?, fun h => ?_⟩
  cases hfind : (all : List α).find? (fun w => bytes least ≤ bytes w && enough w) with
  | none =>
      have hnot := List.find?_eq_none.mp hfind w (Ordered.mem_all w)
      simp [h.least_le, h.is_enough] at hnot
  | some found => rw [h.unique (narrowest_of_find? hfind)]

theorem find?_eq_none_iff :
    (all : List α).find? (fun w => bytes least ≤ bytes w && enough w) = none ↔
      ∀ w : α, bytes least ≤ bytes w → ¬ enough w := by
  rw [List.find?_eq_none]
  constructor
  · intro hnone w hleast henough
    exact hnone w (Ordered.mem_all w) (by simp [hleast, henough])
  · intro hnone w _ hboth
    rw [Bool.and_eq_true, decide_eq_true_eq, decide_eq_true_eq] at hboth
    exact hnone w hboth.1 hboth.2

theorem exists_narrowest_iff :
    (∃ w, Narrowest least enough w) ↔ ∃ w : α, bytes least ≤ bytes w ∧ enough w := by
  refine ⟨fun ⟨w, h⟩ => ⟨w, h.least_le, h.is_enough⟩, fun ⟨w, hleast, henough⟩ => ?_⟩
  cases hfind : (all : List α).find? (fun w => bytes least ≤ bytes w && enough w) with
  | none => exact absurd henough (find?_eq_none_iff.mp hfind w hleast)
  | some found => exact ⟨found, narrowest_of_find? hfind⟩

theorem select_eq_ok_iff :
    select value least = .ok w ↔ Narrowest least (value ≤ maxValue ·) w := by
  rw [← find?_eq_some_iff, select]
  cases (all : List α).find? fun w => bytes least ≤ bytes w && value ≤ maxValue w <;> simp

theorem of_select_eq_error {fault : CapacityExceeded} (hselect : select value least = .error fault) :
    fault = { field := field α, value, max := limit α } ∧
      ∀ w : α, bytes least ≤ bytes w → maxValue w < value := by
  unfold select at hselect
  split at hselect
  · cases hselect
  · next hnone =>
    cases hselect
    exact ⟨rfl, fun w hleast => Nat.not_le.mp (find?_eq_none_iff.mp hnone w hleast)⟩

end

theorem maxValue_le (hbytes : bytes w ≤ bytes other) : maxValue w ≤ maxValue other := by
  rw [maxValue, maxValue, Bytes.capacity_eq, Bytes.capacity_eq]
  exact Nat.sub_le_sub_right (Nat.pow_le_pow_right (by decide) (Nat.mul_le_mul_left 8 hbytes)) 1

/-- A number that some width can store can be stored with the widest. -/
theorem exists_narrowest_le_iff [Ordered α] {widest : α} (hwidest : ∀ w : α, bytes w ≤ bytes widest) :
    (∃ w, Narrowest least (value ≤ maxValue ·) w) ↔ value ≤ maxValue widest := by
  rw [exists_narrowest_iff]
  constructor
  · rintro ⟨w, -, hvalue⟩
    exact Nat.le_trans hvalue (maxValue_le (hwidest w))
  · intro hvalue
    exact ⟨widest, hwidest least, hvalue⟩

end WidthClass

theorem NameWidth.bytes_le (w : NameWidth) :
    WidthClass.bytes w ≤ WidthClass.bytes NameWidth.bits16 := by
  cases w <;> decide

theorem IdWidth.bytes_le (w : IdWidth) : WidthClass.bytes w ≤ WidthClass.bytes IdWidth.bits32 := by
  cases w <;> decide

theorem OffsetWidth.bytes_le (w : OffsetWidth) :
    WidthClass.bytes w ≤ WidthClass.bytes OffsetWidth.bits32 := by
  cases w <;> decide

namespace Config

open WidthClass (Narrowest)

variable {config : Config} {stats : Stats} {size : Widths → Nat} {w : Widths} {count : Nat}
  {id : IdWidth} {offset : OffsetWidth} {fault : CapacityExceeded}

theorem selectIdWidth_eq_ok_iff :
    config.selectIdWidth count = .ok id ↔
      Narrowest config.minIdWidth (fun w => count + 1 ≤ WidthClass.maxValue w) id := by
  rw [← WidthClass.select_eq_ok_iff, selectIdWidth]
  cases WidthClass.select (count + 1) config.minIdWidth <;> simp

theorem selectOffsetWidth_eq_ok_iff {size : OffsetWidth → Nat} :
    config.selectOffsetWidth size = .ok offset ↔
      Narrowest config.minOffsetWidth (fun w => size w - 1 ≤ WidthClass.maxValue w) offset := by
  rw [← WidthClass.find?_eq_some_iff, selectOffsetWidth]
  split
  · next w hw => rw [hw, Except.ok.injEq, Option.some.injEq]
  · next hnone => simp only [hnone, reduceCtorEq]

/-- The widths of a file for the given maxima: each is the narrowest that is enough, and the children
of a node can be counted in a byte. -/
structure Chosen (config : Config) (stats : Stats) (size : Widths → Nat) (w : Widths) : Prop where
  children : stats.maxChildCount ≤ 255
  name : Narrowest config.minNameWidth (fun v => stats.maxNameLength ≤ WidthClass.maxValue v) w.name
  id : Narrowest config.minIdWidth (fun v => stats.resultCount + 1 ≤ WidthClass.maxValue v) w.id
  offset : Narrowest config.minOffsetWidth
    (fun v => size { w with offset := v } - 1 ≤ WidthClass.maxValue v) w.offset

/-- The offsets reach to the end of the file. -/
theorem Chosen.size_le (h : config.Chosen stats size w) :
    size w ≤ Bytes.capacity w.offsetBytes := by
  have hlast := WidthClass.le_maxValue_iff.mp h.offset.is_enough
  show size w ≤ Bytes.capacity (WidthClass.bytes w.offset)
  exact Nat.le_of_pred_lt hlast

theorem chooseWidths_eq_ok_iff :
    config.chooseWidths stats size = .ok w ↔ config.Chosen stats size w := by
  unfold chooseWidths
  split
  · next hchildren =>
    refine iff_of_false nofun fun h => ?_
    exact absurd h.children (Nat.not_le.mpr hchildren)
  · next hchildren =>
    constructor
    · intro hw
      obtain ⟨name, hname, hw⟩ := except_bind_eq_ok.mp hw
      obtain ⟨id, hid, hw⟩ := except_bind_eq_ok.mp hw
      obtain ⟨offset, hoffset, hw⟩ := except_bind_eq_ok.mp hw
      cases hw
      exact ⟨Nat.not_lt.mp hchildren, WidthClass.select_eq_ok_iff.mp hname,
        selectIdWidth_eq_ok_iff.mp hid, selectOffsetWidth_eq_ok_iff.mp hoffset⟩
    · intro h
      exact except_bind_eq_ok.mpr ⟨w.name, WidthClass.select_eq_ok_iff.mpr h.name,
        except_bind_eq_ok.mpr ⟨w.id, selectIdWidth_eq_ok_iff.mpr h.id,
          except_bind_eq_ok.mpr ⟨w.offset, selectOffsetWidth_eq_ok_iff.mpr h.offset, rfl⟩⟩⟩

/-- There are widths for the given maxima exactly if none of them is too large for the widest, and some
offsets reach to the end of the file that they make. -/
theorem exists_chosen_iff :
    (∃ w, config.Chosen stats size w) ↔
      stats.maxChildCount ≤ 255 ∧ stats.maxNameLength ≤ 65535 ∧
        stats.resultCount + 1 ≤ 2 ^ 32 - 1 ∧
        ∃ w : Widths,
          Narrowest config.minNameWidth (fun v => stats.maxNameLength ≤ WidthClass.maxValue v) w.name ∧
          Narrowest config.minIdWidth (fun v => stats.resultCount + 1 ≤ WidthClass.maxValue v) w.id ∧
          WidthClass.bytes config.minOffsetWidth ≤ WidthClass.bytes w.offset ∧
          size w - 1 ≤ WidthClass.maxValue w.offset := by
  constructor
  · rintro ⟨w, h⟩
    exact ⟨h.children, (WidthClass.exists_narrowest_le_iff NameWidth.bytes_le).mp ⟨_, h.name⟩,
      (WidthClass.exists_narrowest_le_iff IdWidth.bytes_le).mp ⟨_, h.id⟩, w, h.name, h.id,
      h.offset.least_le, h.offset.is_enough⟩
  · rintro ⟨hchildren, -, -, w, hname, hid, hleast, henough⟩
    have hoffset : ∃ offset, Narrowest config.minOffsetWidth
        (fun v => size { w with offset := v } - 1 ≤ WidthClass.maxValue v) offset :=
      WidthClass.exists_narrowest_iff.mpr ⟨w.offset, hleast, henough⟩
    obtain ⟨offset, hoffset⟩ := hoffset
    exact ⟨{ w with offset }, hchildren, hname, hid, hoffset⟩

/-- What is too large for the widest format. -/
inductive Exceeds (config : Config) (stats : Stats) (size : Widths → Nat) : CapacityExceeded → Prop
  | childCount (h : 255 < stats.maxChildCount) :
      Exceeds config stats size
        { field := .childCount, value := stats.maxChildCount, max := 255 }
  | nameLength (h : 65535 < stats.maxNameLength) :
      Exceeds config stats size
        { field := .nameLength, value := stats.maxNameLength, max := 65535 }
  | resultCount (h : 2 ^ 32 - 2 < stats.resultCount) :
      Exceeds config stats size
        { field := .resultCount, value := stats.resultCount, max := 2 ^ 32 - 2 }
  | fileSize {name : NameWidth} {id : IdWidth}
      (hname : Narrowest config.minNameWidth
        (fun v => stats.maxNameLength ≤ WidthClass.maxValue v) name)
      (hid : Narrowest config.minIdWidth (fun v => stats.resultCount + 1 ≤ WidthClass.maxValue v) id)
      (h : ∀ offset, WidthClass.bytes config.minOffsetWidth ≤ WidthClass.bytes offset →
        WidthClass.maxValue offset < size { name, id, offset } - 1) :
      Exceeds config stats size
        { field := .fileSize, value := size { name, id, offset := .bits32 }, max := 2 ^ 32 - 1 }

theorem Exceeds.max_lt (h : config.Exceeds stats size fault) : fault.max < fault.value := by
  cases h with
  | childCount h => exact h
  | nameLength h => exact h
  | resultCount h => exact h
  | fileSize _ _ h =>
      exact Nat.lt_of_lt_of_le (h .bits32 (OffsetWidth.bytes_le _)) (Nat.sub_le _ 1)

theorem of_selectIdWidth_eq_error (hselect : config.selectIdWidth count = .error fault) :
    fault = { field := .resultCount, value := count, max := 2 ^ 32 - 2 } ∧
      2 ^ 32 - 2 < count := by
  unfold selectIdWidth at hselect
  split at hselect
  · cases hselect
  · next hfault =>
    cases hselect
    obtain ⟨-, hall⟩ := WidthClass.of_select_eq_error hfault
    exact ⟨rfl, Nat.lt_of_succ_lt_succ (hall .bits32 (IdWidth.bytes_le _))⟩

theorem of_selectOffsetWidth_eq_error {size : OffsetWidth → Nat}
    (hselect : config.selectOffsetWidth size = .error fault) :
    fault = { field := .fileSize, value := size .bits32, max := 2 ^ 32 - 1 } ∧
      ∀ offset, WidthClass.bytes config.minOffsetWidth ≤ WidthClass.bytes offset →
        WidthClass.maxValue offset < size offset - 1 := by
  unfold selectOffsetWidth at hselect
  dsimp only at hselect
  split at hselect
  · cases hselect
  · next hnone =>
    cases hselect
    exact ⟨rfl, fun offset hleast =>
      Nat.not_le.mp (WidthClass.find?_eq_none_iff.mp hnone offset hleast)⟩

/-- What is refused is too large. -/
theorem exceeds_of_chooseWidths (hfault : config.chooseWidths stats size = .error fault) :
    config.Exceeds stats size fault := by
  unfold chooseWidths at hfault
  split at hfault
  · next hchildren =>
    cases hfault
    exact .childCount hchildren
  · rcases except_bind_eq_error.mp hfault with hname | ⟨name, hname, hfault⟩
    · obtain ⟨rfl, hall⟩ := WidthClass.of_select_eq_error hname
      exact .nameLength (hall .bits16 (NameWidth.bytes_le _))
    rcases except_bind_eq_error.mp hfault with hid | ⟨id, hid, hfault⟩
    · obtain ⟨rfl, hcount⟩ := of_selectIdWidth_eq_error hid
      exact .resultCount hcount
    rcases except_bind_eq_error.mp hfault with hoffset | ⟨offset, -, hfault⟩
    · obtain ⟨rfl, hall⟩ := of_selectOffsetWidth_eq_error hoffset
      exact .fileSize (WidthClass.select_eq_ok_iff.mp hname) (selectIdWidth_eq_ok_iff.mp hid) hall
    · cases hfault

end Config

end PrefixSearch
