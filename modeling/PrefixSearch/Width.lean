import PrefixSearch.Bytes.Uint

/-!
# Integer widths of the file format

Lengths, result IDs and file offsets are each stored with one of a few widths. The narrowest that
fits is chosen per file and recorded in the header by its selector, its position among the widths
of its class.
-/

namespace PrefixSearch

/-- A quantity that can be too large for the widest encoding. -/
inductive CapacityField where
  | nameLength
  | resultCount
  | childCount
  | fileSize
deriving DecidableEq, Repr

def CapacityField.name : CapacityField → String
  | .nameLength => "name length"
  | .resultCount => "result count"
  | .childCount => "child count"
  | .fileSize => "file size"

/-- A quantity that does not fit, with the largest value that would. -/
structure CapacityExceeded where
  field : CapacityField
  value : Nat
  max : Nat
deriving DecidableEq, Repr

def CapacityExceeded.message (e : CapacityExceeded) : String :=
  s!"{e.field.name} of {e.value} exceeds the supported maximum of {e.max}"

/-- A class of widths for one quantity. -/
class WidthClass (α : Type) where
  /-- The widths, narrowest first. -/
  all : List α
  /-- The number of bytes. -/
  bytes : α → Nat
  /-- The header's code of the width. -/
  selector : α → UInt8
  /-- The quantity the class is for. -/
  field : CapacityField

namespace WidthClass

variable {α : Type} [WidthClass α]

/-- The number of bits. -/
def bits (w : α) : Nat :=
  8 * bytes w

/-- The largest value that can be stored. -/
def maxValue (w : α) : Nat :=
  Bytes.capacity (bytes w) - 1

def ofSelector? (selector : UInt8) : Option α :=
  (all : List α)[selector.toNat]?

/-- The largest value that the widest of the class can store. -/
def limit (α : Type) [WidthClass α] : Nat :=
  ((all : List α).map maxValue).foldl max 0

/-- The narrowest width that is at least `least` and can store `value`. -/
def select (value : Nat) (least : α) : Except CapacityExceeded α :=
  match (all : List α).find? fun w => bytes least ≤ bytes w && value ≤ maxValue w with
  | some w => .ok w
  | none => .error { field := field α, value, max := limit α }

end WidthClass

/-- The width of the length of a name, URL, label or symbol prefix. -/
inductive NameWidth where
  | bits8 | bits16
deriving DecidableEq, Repr

instance : WidthClass NameWidth where
  all := [.bits8, .bits16]
  bytes
    | .bits8 => 1
    | .bits16 => 2
  selector
    | .bits8 => 0
    | .bits16 => 1
  field := .nameLength

/-- The width of a result ID and of the number of IDs in a set. -/
inductive IdWidth where
  | bits16 | bits24 | bits32
deriving DecidableEq, Repr

instance : WidthClass IdWidth where
  all := [.bits16, .bits24, .bits32]
  bytes
    | .bits16 => 2
    | .bits24 => 3
    | .bits32 => 4
  selector
    | .bits16 => 0
    | .bits24 => 1
    | .bits32 => 2
  field := .resultCount

/-- The alias reference that means "no alias": all bits set. -/
def IdWidth.sentinel (w : IdWidth) : Nat :=
  WidthClass.maxValue w

/-- The width of a file offset. -/
inductive OffsetWidth where
  | bits24 | bits32
deriving DecidableEq, Repr

instance : WidthClass OffsetWidth where
  all := [.bits24, .bits32]
  bytes
    | .bits24 => 3
    | .bits32 => 4
  selector
    | .bits24 => 0
    | .bits32 => 1
  field := .fileSize

/-- The name of a width in configuration files: its number of bits. -/
def widthName {α : Type} [WidthClass α] (w : α) : String :=
  toString (WidthClass.bits w)

def widthOfName? {α : Type} [WidthClass α] (name : String) : Option α :=
  (WidthClass.all : List α).find? (widthName · = name)

/-- The widths chosen for one file. -/
structure Widths where
  name : NameWidth
  id : IdWidth
  offset : OffsetWidth
deriving DecidableEq, Repr

namespace Widths

/-- The bytes of a length. -/
def nameBytes (w : Widths) : Nat :=
  WidthClass.bytes w.name

/-- The bytes of a result ID. -/
def idBytes (w : Widths) : Nat :=
  WidthClass.bytes w.id

/-- The bytes of a file offset. -/
def offsetBytes (w : Widths) : Nat :=
  WidthClass.bytes w.offset

def describe (w : Widths) : String :=
  s!"name {widthName w.name}b, result id {widthName w.id}b, offset {widthName w.offset}b"

end Widths

end PrefixSearch
