/-!
# UTF-8

Text as bytes and bytes as text. Names, URLs and labels are measured and stored as UTF-8. A dump
also has to show edge labels that end inside a character, so there is a reading that never fails:
each maximal ill-formed part stands for one replacement character.
-/

namespace PrefixSearch.Text

/-- The UTF-8 bytes of a text. -/
def utf8 (s : String) : List UInt8 :=
  s.toUTF8.data.toList

/-- The text whose UTF-8 bytes these are, if they are well formed. -/
def ofUtf8? (bytes : List UInt8) : Option String :=
  String.fromUTF8? ⟨bytes.toArray⟩

/-- A character of which some bytes are still owed: its code so far, how many bytes are owed, and
the bounds of the next one. -/
structure Pending where
  code : Nat
  owed : Nat
  least : Nat
  greatest : Nat

/-- The character that stands for an ill-formed part. -/
def replacement : Char := Char.ofNat 0xFFFD

/-- Begin a character with byte `b`: the characters that are finished by it, last first, and what
is pending after it. -/
def beginChar (b : Nat) : List Char × Option Pending :=
  if b < 0x80 then ([Char.ofNat b], none)
  else if 0xC2 ≤ b ∧ b ≤ 0xDF then ([], some ⟨b % 0x20, 1, 0x80, 0xBF⟩)
  else if b = 0xE0 then ([], some ⟨0, 2, 0xA0, 0xBF⟩)
  else if b = 0xED then ([], some ⟨0xD, 2, 0x80, 0x9F⟩)
  else if 0xE1 ≤ b ∧ b ≤ 0xEF then ([], some ⟨b % 0x10, 2, 0x80, 0xBF⟩)
  else if b = 0xF0 then ([], some ⟨0, 3, 0x90, 0xBF⟩)
  else if 0xF1 ≤ b ∧ b ≤ 0xF3 then ([], some ⟨b % 0x8, 3, 0x80, 0xBF⟩)
  else if b = 0xF4 then ([], some ⟨4, 3, 0x80, 0x8F⟩)
  else ([replacement], none)

/-- Read byte `b` after `pending`. A byte that does not continue the pending character ends it as
ill formed and begins the next one. -/
def stepChar (pending : Option Pending) (b : Nat) : List Char × Option Pending :=
  match pending with
  | none => beginChar b
  | some p =>
      if p.least ≤ b ∧ b ≤ p.greatest then
        let code := p.code * 0x40 + b % 0x40
        if p.owed = 1 then ([Char.ofNat code], none)
        else ([], some ⟨code, p.owed - 1, 0x80, 0xBF⟩)
      else
        let (done, next) := beginChar b
        (done ++ [replacement], next)

/-- Read bytes after `pending`, putting the characters onto `done` (read backwards). -/
def lossyOnto (done : List Char) (pending : Option Pending) : List UInt8 → List Char
  | [] => (match pending with | none => done | some _ => replacement :: done).reverse
  | b :: bytes =>
      let (chars, next) := stepChar pending b.toNat
      lossyOnto (chars ++ done) next bytes

/-- The text of bytes that need not be well formed. -/
def ofUtf8Lossy (bytes : List UInt8) : String :=
  String.ofList (lossyOnto [] none bytes)

end PrefixSearch.Text
