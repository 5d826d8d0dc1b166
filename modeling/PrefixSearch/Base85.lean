import PrefixSearch.Bytes.Uint

/-!
# Base85

Bytes as text over the alphabet of RFC 1924. Four bytes, read as one number with the most
significant first, become five digits in base 85. The last group is filled up with zero bytes,
which decoding keeps: a reader of the data never looks behind its real end.
-/

namespace PrefixSearch.Base85

/-- The digits in the order of their values. -/
def alphabet : Array Char :=
  ("0123456789ABCDEFGHIJKLMNOPQRSTUVWXYZabcdefghijklmnopqrstuvwxyz" ++
    "!#$%&()*+-;<=>?@^_`\x7b|\x7d~").toList.toArray

/-- The number with these digits, most significant first. -/
def ofDigits (base : Nat) (digits : List Nat) : Nat :=
  digits.foldl (fun value digit => value * base + digit) 0

/-- The last `count` digits of a number, most significant first. -/
def digits (base : Nat) : (count value : Nat) → List Nat
  | 0, _ => []
  | count + 1, value => digits base count (value / base) ++ [value % base]

/-- The digit characters of a group of four bytes. -/
def encodeGroup (group : List UInt8) : List Char :=
  (digits 85 5 (ofDigits 256 (group.map UInt8.toNat))).map fun digit => alphabet[digit]?.getD '0'

/-- The digit value of every ASCII character, nothing for one that is no digit. -/
def digitValues : Array (Option Nat) :=
  (Array.range 128).map fun code => alphabet.idxOf? (Char.ofNat code)

/-- The value of a digit character. -/
def digitValue? (c : Char) : Option Nat :=
  digitValues[c.toNat]?.join

/-- The four bytes of a group of five digit characters, unless a character is no digit or the
number needs more than four bytes. -/
def decodeGroup? (group : List Char) : Option (List UInt8) := do
  let value := ofDigits 85 (← group.mapM digitValue?)
  if value < Bytes.capacity 4 then
    some ((digits 256 4 value).map UInt8.ofNat)
  else
    none

/-- Encode bytes and put the text behind `done` (read backwards). -/
def encodeOnto (done : List Char) : List UInt8 → List Char
  | a :: b :: c :: d :: rest => encodeOnto ((encodeGroup [a, b, c, d]).reverse ++ done) rest
  | [a, b, c] => ((encodeGroup [a, b, c, 0]).reverse ++ done).reverse
  | [a, b] => ((encodeGroup [a, b, 0, 0]).reverse ++ done).reverse
  | [a] => ((encodeGroup [a, 0, 0, 0]).reverse ++ done).reverse
  | [] => done.reverse

/-- Decode text and put the bytes behind `done` (read backwards). -/
def decodeOnto? (done : List UInt8) : List Char → Option (List UInt8)
  | a :: b :: c :: d :: e :: rest =>
      match decodeGroup? [a, b, c, d, e] with
      | some group => decodeOnto? (group.reverse ++ done) rest
      | none => none
  | [] => some done.reverse
  | _ => none

def encode (data : List UInt8) : String :=
  String.ofList (encodeOnto [] data)

/-- The bytes of a text, unless its length is not a multiple of five or a group is refused. -/
def decode? (text : String) : Option (List UInt8) :=
  decodeOnto? [] text.toList

end PrefixSearch.Base85
