import PrefixSearch.Bytes.Reader

/-!
# A cursor of machine words

Fields are asked for call after call, and a fault does not end the sequence: the next call begins where
the fault left the cursor.

A cursor can do with machine words.  A number is put together in a word of 64 bits, every byte being
shifted to its place, and positions and lengths are such words as well.  A field whose end no word can
hold is not there, since no data is as long as that.
-/

namespace PrefixSearch.Bytes

/-! ## Calls -/

/-- A field that is asked for. -/
inductive Call where
  /-- A number of `width` bytes. -/
  | uint (width : Nat)
  | bytes (length : Nat)
  /-- A text, its length coming before it as a number of `width` bytes. -/
  | text (width : Nat)
deriving DecidableEq, Repr

/-- What a field holds. -/
inductive Item where
  | number (value : Nat)
  | bytes (found : List UInt8)
  | text (s : String)
deriving DecidableEq, Repr

/-- Ask for one field after the other, each at the position after the call before it: what is given,
and the position after every call. -/
def answers {Position : Type} (read : Call → Position → Except Corruption Item × Position) :
    Position → List Call → List (Except Corruption Item × Position)
  | _, [] => []
  | pos, call :: calls =>
      let answer := read call pos
      answer :: answers read answer.2 calls

/-- Read the field that is asked for. -/
def Call.read (source : Source) (call : Call) (pos : Nat) : Except Corruption Item × Nat :=
  match call with
  | .uint width =>
      let (answer, after) := Reader.uint width source pos
      (answer.map .number, after)
  | .bytes length =>
      let (answer, after) := Reader.bytes length source pos
      (answer.map .bytes, after)
  | .text width =>
      let (answer, after) := Reader.text width source pos
      (answer.map .text, after)

/-! ## Words -/

namespace Word

/-- The low `width` bytes of a word, least significant first. -/
def bytes (width : Nat) (word : UInt64) : List UInt8 :=
  ((List.range 8).map fun place => (word >>> UInt64.ofNat (8 * place)).toUInt8).take width

/-- Shift each byte to its place, the first one to the given place, and put it into the word. -/
def fill (word : UInt64) (place : Nat) : List UInt8 → UInt64
  | [] => word
  | byte :: bytes =>
      fill (word ||| byte.toUInt64 <<< UInt64.ofNat (8 * place)) (place + 1) bytes

/-- The word that bytes stand for, least significant first. -/
def ofBytes (bytes : List UInt8) : UInt64 :=
  fill 0 0 bytes

/-- The sum of two words, unless no word can hold it. -/
def sum? (a b : UInt64) : Option UInt64 :=
  if a + b < a then none else some (a + b)

end Word

/-! ## Fields at words -/

namespace Cursor

/-- The bytes between two positions, if these are in order and inside. -/
def slice? (data : Array UInt8) (start stop : UInt64) : Option (List UInt8) :=
  if start ≤ stop ∧ stop.toNat ≤ data.size then
    some (data.extract start.toNat stop.toNat).toList
  else
    none

/-- The `length` bytes from a position on, if a word can hold their end and all of them are there. -/
def part? (data : Array UInt8) (pos length : UInt64) : Option (List UInt8) :=
  (Word.sum? pos length).bind (slice? data pos)

/-- The number of `width` bytes at a position, if all of them are there. -/
def uint? (data : Array UInt8) (pos width : UInt64) : Option UInt64 :=
  (part? data pos width).map Word.ofBytes

def uint (data : Array UInt8) (width pos : UInt64) : Except Corruption UInt64 × UInt64 :=
  match uint? data pos width with
  | some value => (.ok value, pos + width)
  | none => (.error (.unexpectedEnd pos.toNat), pos)

def bytes (data : Array UInt8) (length pos : UInt64) : Except Corruption (List UInt8) × UInt64 :=
  match part? data pos length with
  | some found => (.ok found, pos + length)
  | none => (.error (.unexpectedEnd pos.toNat), pos)

def text (data : Array UInt8) (width pos : UInt64) : Except Corruption String × UInt64 :=
  match uint data width pos with
  | (.error fault, after) => (.error fault, after)
  | (.ok length, start) =>
      match bytes data length start with
      | (.error fault, after) => (.error fault, after)
      | (.ok found, stop) =>
          match Text.ofUtf8? found with
          | some s => (.ok s, stop)
          | none => (.error (.invalidUtf8 (stop - length).toNat), stop)

end Cursor

/-- Read the field that is asked for at a position that is a word. -/
def Call.readAtWord (data : Array UInt8) (call : Call) (pos : UInt64) :
    Except Corruption Item × UInt64 :=
  match call with
  | .uint width =>
      let (answer, after) := Cursor.uint data (UInt64.ofNat width) pos
      (answer.map fun value => .number value.toNat, after)
  | .bytes length =>
      let (answer, after) := Cursor.bytes data (UInt64.ofNat length) pos
      (answer.map .bytes, after)
  | .text width =>
      let (answer, after) := Cursor.text data (UInt64.ofNat width) pos
      (answer.map .text, after)

/-- The lengths and widths of a call are words, and a number that it asks for fits into one. -/
def Call.FitsWord : Call → Prop
  | .uint width => width ≤ 8
  | .bytes length => length < UInt64.size
  | .text width => width ≤ 8

instance (call : Call) : Decidable call.FitsWord :=
  match call with
  | .uint width => inferInstanceAs (Decidable (width ≤ 8))
  | .bytes length => inferInstanceAs (Decidable (length < UInt64.size))
  | .text width => inferInstanceAs (Decidable (width ≤ 8))

end PrefixSearch.Bytes
