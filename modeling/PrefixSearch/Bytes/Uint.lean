/-!
# Fixed-width integers

Integers are stored in little-endian order with as many bytes as the file's widths say, so the
number of bytes is a parameter.
-/

namespace PrefixSearch.Bytes

/-- The low `width` bytes of a number, least significant first. -/
def uint : (width value : Nat) → List UInt8
  | 0, _ => []
  | width + 1, value => UInt8.ofNat value :: uint width (value / 256)

/-- The number that bytes stand for, least significant first. -/
def toNat : List UInt8 → Nat
  | [] => 0
  | b :: bytes => b.toNat + 256 * toNat bytes

/-- The number of values that `width` bytes can stand for. -/
def capacity : (width : Nat) → Nat
  | 0 => 1
  | width + 1 => 256 * capacity width

theorem length_uint (width value : Nat) : (uint width value).length = width := by
  induction width generalizing value with
  | zero => rfl
  | succ width ih => simp [uint, ih]

theorem toNat_uint (width value : Nat) : toNat (uint width value) = value % capacity width := by
  induction width generalizing value with
  | zero => simp [uint, toNat, capacity, Nat.mod_one]
  | succ width ih =>
      rw [uint, toNat, ih, capacity, Nat.mod_mul]
      simp

end PrefixSearch.Bytes
