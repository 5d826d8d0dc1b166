import PrefixSearch.Proofs.Bytes.Fields

/-!
# What a reader depends on

A confined reader never leaves the bytes that may be read, and what it gives depends on them alone.
`Carries` compares two readers over two sources: where more may be read than before and everything
that could be read is still there, a reader that succeeded succeeds again, with the same value at
the same position.  Both properties pass from readers to the readers that are put together from
them.
-/

namespace PrefixSearch.Bytes

namespace Source

variable {source other : Source}

/-- The same bytes may be read of both. -/
def Alike (source other : Source) : Prop :=
  ∀ pos length, source.slice? pos length = other.slice? pos length

/-- What is read of the short one can also be read of the long one, and is the same there. -/
def Extends (long short : Source) : Prop :=
  ∀ pos length found, short.slice? pos length = some found → long.slice? pos length = some found

theorem slice?_eq_some_iff {pos length : Nat} {found : List UInt8} :
    source.slice? pos length = some found ↔ found.length = length ∧ source.Holds pos found := by
  constructor
  · intro hslice
    have hlength := (length_of_slice?_eq_some hslice).1
    exact ⟨hlength, by rw [Holds, hlength, hslice]⟩
  · rintro ⟨rfl, hholds⟩
    exact hholds

/-- Bytes behind the others, and a later end, take nothing away. -/
theorem extends_append (data more : Array UInt8) {stop longStop : Nat} (hstop : stop ≤ longStop) :
    { bytes := data ++ more, stop := longStop : Source }.Extends { bytes := data, stop } := by
  intro pos length found hslice
  obtain ⟨hlength, hholds⟩ := slice?_eq_some_iff.mp hslice
  obtain ⟨hinside, hbytes⟩ := holds_iff.mp hholds
  simp only [size] at hinside hbytes
  refine slice?_eq_some_iff.mpr ⟨hlength, holds_iff.mpr ⟨?_, ?_⟩⟩
  · simp only [size, Array.size_append]
    omega
  · have hcount : data.toList.length = data.size := Array.length_toList
    have hpos : pos ≤ data.toList.length := by omega
    have hleft : found.length ≤ (data.toList.drop pos).length := by
      rw [List.length_drop]
      omega
    rw [Array.toList_append, List.drop_append_of_le_length hpos, List.take_append_of_le_length hleft,
      hbytes]

/-- Bytes that may not be read make no difference. -/
theorem alike_append (data behind : Array UInt8) :
    (ofArray data).Alike { bytes := data ++ behind, stop := data.size } := by
  intro pos length
  have hsize : ({ bytes := data ++ behind, stop := data.size : Source }).size = data.size := by
    simp [size]
  cases hslice : (ofArray data).slice? pos length with
  | some found => exact (extends_append data behind (Nat.le_refl _) pos length found hslice).symm
  | none =>
      have hbeyond : ¬ pos + length ≤ data.size := by
        intro hinside
        simp [slice?, hinside] at hslice
      rw [slice?, hsize, if_neg hbeyond]

theorem uint?_of_extends (hext : source.Extends other) {pos width value : Nat}
    (huint : other.uint? pos width = some value) : source.uint? pos width = some value := by
  obtain ⟨found, hslice, rfl⟩ := Option.map_eq_some_iff.mp huint
  rw [uint?, hext _ _ _ hslice, Option.map_some]

end Source

namespace Reader

variable {α β γ : Type}

/-! ## Readers that stay inside -/

/-- The reader moves forward inside the bytes that may be read, and depends on nothing else. -/
structure Confined (read : Reader α) : Prop where
  position : ∀ {source pos}, pos ≤ source.size →
    pos ≤ (read source pos).2 ∧ (read source pos).2 ≤ source.size
  outcome : ∀ {source other pos}, source.Alike other → read source pos = read other pos

namespace Confined

theorem pure (a : α) : Confined (Pure.pure a) where
  position hpos := ⟨Nat.le_refl _, hpos⟩
  outcome _ := rfl

theorem fail (fault : Corruption) : Confined (Reader.fail fault : Reader α) where
  position hpos := ⟨Nat.le_refl _, hpos⟩
  outcome _ := rfl

theorem bind {read : Reader α} {next : α → Reader β} (hread : Confined read)
    (hnext : ∀ a, Confined (next a)) : Confined (read >>= next) where
  position := by
    intro source pos hpos
    have hfirst := hread.position hpos
    show pos ≤ ((read >>= next) source pos).2 ∧ ((read >>= next) source pos).2 ≤ source.size
    simp only [Bind.bind]
    rcases hcase : read source pos with ⟨fault | a, mid⟩
    · simpa only [hcase] using hfirst
    · rw [hcase] at hfirst
      have hsecond := (hnext a).position hfirst.2
      exact ⟨Nat.le_trans hfirst.1 hsecond.1, hsecond.2⟩
  outcome := by
    intro source other pos halike
    simp only [Bind.bind]
    rw [hread.outcome halike]
    rcases read other pos with ⟨fault | a, mid⟩
    · rfl
    · exact (hnext a).outcome halike

theorem bytes (length : Nat) : Confined (Reader.bytes length) where
  position := by
    intro source pos hpos
    unfold Reader.bytes
    split
    · next hslice => exact ⟨Nat.le_add_right _ _, (Source.length_of_slice?_eq_some hslice).2⟩
    · exact ⟨Nat.le_refl _, hpos⟩
  outcome := by
    intro source other pos halike
    unfold Reader.bytes
    rw [halike]

theorem uint (width : Nat) : Confined (Reader.uint width) :=
  (bytes width).bind fun _ => .pure _

theorem check (condition : Prop) [Decidable condition] (fault : Corruption) :
    Confined (Reader.check condition fault) := by
  unfold Reader.check
  split
  · exact .pure ()
  · exact .fail fault

theorem replicate {read : Reader α} (hread : Confined read) :
    ∀ count, Confined (Reader.replicate read count)
  | 0 => .pure []
  | count + 1 => hread.bind fun _ => (hread.replicate count).bind fun _ => .pure _

end Confined

/-! ## Readers over more data -/

/-- Where the first reader succeeds over the short source, the second one succeeds over the long
source, at the same position and with the value that belongs to the first one's. -/
def Carries (long short : Source) (belongs : α → β) (read : Reader α) (again : Reader β) : Prop :=
  ∀ pos a after, read short pos = (.ok a, after) → again long pos = (.ok (belongs a), after)

namespace Carries

variable {long short : Source}

theorem pure (belongs : α → β) (a : α) :
    Carries long short belongs (Pure.pure a) (Pure.pure (belongs a)) := by
  intro pos b after hread
  cases hread
  rfl

theorem bind {belongs : β → γ} {read again : Reader α} {next : α → Reader β}
    {nextAgain : α → Reader γ} (hread : Carries long short id read again)
    (hnext : ∀ a, Carries long short belongs (next a) (nextAgain a)) :
    Carries long short belongs (read >>= next) (again >>= nextAgain) := by
  intro pos b after hboth
  obtain ⟨a, mid, hfirst, hsecond⟩ := bind_eq_ok hboth
  rw [bind_of_ok (hread pos a mid hfirst)]
  exact hnext a mid b after hsecond

theorem position : Carries long short id Reader.position Reader.position := by
  intro pos a after hread
  cases hread
  rfl

theorem require (value : Option α) (fault : Corruption) :
    Carries long short id (Reader.require value fault) (Reader.require value fault) := by
  cases value with
  | none =>
      intro pos a after hread
      cases hread
  | some a => exact pure id a

/-- A condition may hold over more data that did not hold before, but not the other way. -/
theorem check {condition conditionAgain : Prop} [Decidable condition] [Decidable conditionAgain]
    {fault faultAgain : Corruption} (himp : condition → conditionAgain) :
    Carries long short id (Reader.check condition fault)
      (Reader.check conditionAgain faultAgain) := by
  intro pos a after hread
  by_cases hcondition : condition
  · rw [check_of hcondition] at hread
    cases hread
    exact check_of (himp hcondition)
  · rw [Reader.check, if_neg hcondition] at hread
    cases hread

theorem bytes (hext : long.Extends short) (length : Nat) :
    Carries long short id (Reader.bytes length) (Reader.bytes length) := by
  intro pos found after hread
  unfold Reader.bytes at hread ⊢
  split at hread
  · next hslice =>
    cases hread
    rw [hext _ _ _ hslice, id]
  · cases hread

theorem uint (hext : long.Extends short) (width : Nat) :
    Carries long short id (Reader.uint width) (Reader.uint width) :=
  (bytes hext width).bind fun _ => pure id _

theorem text (hext : long.Extends short) (width : Nat) :
    Carries long short id (Reader.text width) (Reader.text width) := by
  refine (uint hext width).bind fun length => (bytes hext length).bind fun found => ?_
  cases Text.ofUtf8? found with
  | none =>
      intro pos a after hread
      cases hread
  | some s => exact pure id s

theorem replicate {read again : Reader α} (hread : Carries long short id read again) :
    ∀ count, Carries long short id (Reader.replicate read count) (Reader.replicate again count)
  | 0 => pure id []
  | count + 1 => hread.bind fun _ => (hread.replicate count).bind fun _ => pure id _

theorem run_eq {belongs : α → β} {read : Reader α} {again : Reader β}
    (hcarries : Carries long short belongs read again) {pos : Nat} {a : α}
    (hread : read.run short pos = .ok a) : again.run long pos = .ok (belongs a) := by
  have hvalue : read short pos = (.ok a, (read short pos).2) := Prod.ext hread rfl
  exact congrArg Prod.fst (hcarries _ _ _ hvalue)

end Carries

end Reader

end PrefixSearch.Bytes
