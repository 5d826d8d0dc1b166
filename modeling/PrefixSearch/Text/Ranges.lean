/-!
# Sets of code points

A character class of the Unicode standard is kept as a list of closed intervals of code points.
The lists themselves are in the modules named for the properties; this module only says what it
means for a character to be in such a list.
-/

namespace PrefixSearch.Text

/-- Closed intervals of code points, ascending and disjoint. -/
abbrev Ranges := List (Nat × Nat)

/-- Whether one of the intervals holds the character. -/
def Ranges.holds (ranges : Ranges) (c : Char) : Bool :=
  ranges.any fun r => r.1 ≤ c.toNat && c.toNat ≤ r.2

/-- A run of capitals whose small letters run alongside: from `first` to `last`, every `step`-th
code point, the small letter of `first` being `small`. -/
structure CaseRun where
  first : Nat
  last : Nat
  step : Nat
  small : Nat

/-- The small letter of a code point that is on the run. -/
def CaseRun.lower? (run : CaseRun) (code : Nat) : Option Nat :=
  if run.first ≤ code ∧ code ≤ run.last ∧ (code - run.first) % run.step = 0 then
    some (run.small + (code - run.first))
  else
    none

end PrefixSearch.Text
