import PrefixSearch.Bytes.Source
import PrefixSearch.Corruption
import PrefixSearch.Text.Utf8

/-!
# Reading fields one after the other

A reader takes the data and a position and gives a value or a fault, and the position after it.
The position is given on a fault too: a field that cannot be read leaves it unchanged, a text
whose length can be read leaves it behind the length or, if its bytes are there but are not UTF-8,
behind the bytes.
-/

namespace PrefixSearch.Bytes

/-- What is read from a source at a position, and the position after it. -/
def Reader (α : Type) : Type :=
  Source → Nat → Except Corruption α × Nat

namespace Reader

instance : Monad Reader where
  pure a := fun _ pos => (.ok a, pos)
  bind read next := fun source pos =>
    match read source pos with
    | (.ok a, after) => next a source after
    | (.error fault, after) => (.error fault, after)

/-- The value alone. -/
def run {α : Type} (read : Reader α) (source : Source) (pos : Nat) : Except Corruption α :=
  (read source pos).1

/-- Where the reader stands. -/
def position : Reader Nat :=
  fun _ pos => (.ok pos, pos)

/-- Report a fault where the reader stands. -/
def fail {α : Type} (fault : Corruption) : Reader α :=
  fun _ pos => (.error fault, pos)

/-- Go on with a value if there is one, and report a fault otherwise. -/
def require {α : Type} (value : Option α) (fault : Corruption) : Reader α :=
  match value with
  | some a => pure a
  | none => fail fault

/-- Go on if the condition holds, and report a fault otherwise. -/
def check (condition : Prop) [Decidable condition] (fault : Corruption) : Reader Unit :=
  if condition then pure () else fail fault

/-- The next `length` bytes. -/
def bytes (length : Nat) : Reader (List UInt8) :=
  fun source pos =>
    match source.slice? pos length with
    | some found => (.ok found, pos + length)
    | none => (.error (.unexpectedEnd pos), pos)

/-- The next number of `width` bytes. -/
def uint (width : Nat) : Reader Nat := do
  let found ← bytes width
  return toNat found

/-- The next text, its length coming before it as a number of `width` bytes. -/
def text (width : Nat) : Reader String := do
  let length ← uint width
  let found ← bytes length
  match Text.ofUtf8? found with
  | some s => pure s
  | none => fun _ pos => (.error (.invalidUtf8 (pos - length)), pos)

/-- Read `count` times. -/
def replicate {α : Type} (read : Reader α) : (count : Nat) → Reader (List α)
  | 0 => pure []
  | count + 1 => do
      let a ← read
      let rest ← replicate read count
      return a :: rest

theorem bind_eq_ok {α β : Type} {read : Reader α} {next : α → Reader β} {source : Source}
    {pos after : Nat} {b : β} (h : (read >>= next) source pos = (.ok b, after)) :
    ∃ a mid, read source pos = (.ok a, mid) ∧ next a source mid = (.ok b, after) := by
  change (match read source pos with
    | (.ok a, mid) => next a source mid
    | (.error fault, mid) => (.error fault, mid)) = (.ok b, after) at h
  split at h
  · next a mid eq => exact ⟨a, mid, eq, h⟩
  · cases h

/-- What holds of every value a reader gives holds of all values it gives when it is repeated. -/
theorem forall_mem_of_replicate {α : Type} {read : Reader α} {P : α → Prop} {source : Source}
    (each : ∀ pos a after, read source pos = (.ok a, after) → P a) :
    ∀ {count pos after : Nat} {values : List α},
      replicate read count source pos = (.ok values, after) → ∀ a ∈ values, P a
  | 0, _, _, _, h => by cases h; simp
  | count + 1, _, _, _, h => by
      obtain ⟨a, mid, first, h⟩ := bind_eq_ok h
      obtain ⟨rest, last, more, h⟩ := bind_eq_ok h
      cases h
      intro b hb
      cases hb with
      | head => exact each _ _ _ first
      | tail _ hb => exact forall_mem_of_replicate each more b hb

end Reader

end PrefixSearch.Bytes
