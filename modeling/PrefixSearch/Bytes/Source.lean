import PrefixSearch.Bytes.Uint

/-!
# Bytes to read from

Data is read at absolute positions, and a part of it can be closed off from a position on. No read
goes beyond that position or beyond the end of the data.
-/

namespace PrefixSearch.Bytes

/-- Data that may be read before the position `stop`. -/
structure Source where
  bytes : Array UInt8
  stop : Nat
deriving DecidableEq

namespace Source

/-- All of the data. -/
def ofArray (bytes : Array UInt8) : Source :=
  { bytes, stop := bytes.size }

/-- The first position that may not be read. -/
def size (source : Source) : Nat :=
  min source.stop source.bytes.size

/-- The `length` bytes from `pos` on, if all of them may be read. -/
def slice? (source : Source) (pos length : Nat) : Option (List UInt8) :=
  if pos + length ≤ source.size then
    some (source.bytes.extract pos (pos + length)).toList
  else
    none

/-- The number of `width` bytes at `pos`, if all of them may be read. -/
def uint? (source : Source) (pos width : Nat) : Option Nat :=
  (source.slice? pos width).map toNat

@[simp] theorem size_ofArray (bytes : Array UInt8) : (ofArray bytes).size = bytes.size := by
  simp [size, ofArray]

theorem length_of_slice?_eq_some {source : Source} {pos length : Nat} {found : List UInt8}
    (h : source.slice? pos length = some found) :
    found.length = length ∧ pos + length ≤ source.size := by
  unfold slice? at h
  split at h
  · next inside =>
    cases h
    have : pos + length ≤ source.bytes.size := Nat.le_trans inside (Nat.min_le_right _ _)
    refine ⟨?_, inside⟩
    simp
    omega
  · cases h

end Source

end PrefixSearch.Bytes
