import PrefixSearch.Json.Value

/-!
# Tokens of a JSON text

The text is read byte by byte. Outside of strings, what is not punctuation or blank is a word,
which has to be a number or one of the three names. Inside of strings every byte but a control
character stands for itself; whether the bytes are Unicode text is settled when the string ends.
-/

namespace PrefixSearch.Json

inductive Token where
  | openArray | closeArray | openObject | closeObject | colon | comma
  | scalar (value : Value)

/-- A piece of a string: a byte, or a UTF-16 unit written as an escape. -/
inductive Piece where
  | byte (b : UInt8)
  | unit (code : Nat)

/-- The bytes of the pieces of a string, nothing if a surrogate is not one of a pair. -/
def bytesOf? (done : List UInt8) : List Piece → Option (List UInt8)
  | [] => some done.reverse
  | .byte b :: rest => bytesOf? (b :: done) rest
  | .unit high :: .unit low :: rest =>
      if 0xD800 ≤ high ∧ high < 0xDC00 then
        if 0xDC00 ≤ low ∧ low < 0xE000 then
          let code := 0x10000 + (high - 0xD800) * 0x400 + (low - 0xDC00)
          bytesOf? ((String.utf8EncodeChar (Char.ofNat code)).reverse ++ done) rest
        else
          none
      else if 0xDC00 ≤ high ∧ high < 0xE000 then
        none
      else
        bytesOf? ((String.utf8EncodeChar (Char.ofNat high)).reverse ++ done) (.unit low :: rest)
  | .unit code :: rest =>
      if 0xD800 ≤ code ∧ code < 0xE000 then none
      else bytesOf? ((String.utf8EncodeChar (Char.ofNat code)).reverse ++ done) rest

/-- The text of the pieces of a string. -/
def textOf? (pieces : List Piece) : Text? :=
  (bytesOf? [] pieces).bind fun bytes => String.fromUTF8? ⟨bytes.toArray⟩

/-- The piece that an escape of one letter stands for. -/
def escape? (letter : Char) : Option Piece :=
  if letter = '\x22' ∨ letter = '\\' ∨ letter = '/' then some (.unit letter.toNat)
  else if letter = 'b' then some (.unit 0x08)
  else if letter = 'f' then some (.unit 0x0C)
  else if letter = 'n' then some (.unit 0x0A)
  else if letter = 'r' then some (.unit 0x0D)
  else if letter = 't' then some (.unit 0x09)
  else none

/-- The value of a hexadecimal digit. -/
def hexDigit? (c : Char) : Option Nat :=
  if '0' ≤ c ∧ c ≤ '9' then some (c.toNat - '0'.toNat)
  else if 'a' ≤ c ∧ c ≤ 'f' then some (c.toNat - 'a'.toNat + 10)
  else if 'A' ≤ c ∧ c ≤ 'F' then some (c.toNat - 'A'.toNat + 10)
  else none

/-- Digits at the front of a word, at least one, and the rest. -/
def digits? (word : List Char) : Option (List Char × List Char) :=
  match word.takeWhile Char.isDigit with
  | [] => none
  | found => some (found, word.dropWhile Char.isDigit)

/-- Whether a word is empty or an exponent. -/
def isExponent (word : List Char) : Bool :=
  match word with
  | [] => true
  | e :: rest =>
      (e = 'e' || e = 'E') &&
        (match rest with
          | '+' :: power => power ≠ [] && power.all Char.isDigit
          | '-' :: power => power ≠ [] && power.all Char.isDigit
          | power => power ≠ [] && power.all Char.isDigit)

/-- Whether a word is a fraction, an exponent, or one after the other. -/
def isFractional (word : List Char) : Bool :=
  match word with
  | '.' :: rest =>
      match digits? rest with
      | some (_, rest) => isExponent rest
      | none => false
  | _ => isExponent word

/-- The number a word is. A number has no zero in front of another digit. -/
def number? (word : List Char) : Option Number := do
  let (negative, unsigned) := match word with
    | '-' :: rest => (true, rest)
    | _ => (false, word)
  let (whole, rest) ← digits? unsigned
  if whole.head? = some '0' ∧ whole.length ≠ 1 then
    none
  else if rest = [] then
    let n := whole.foldl (fun n c => 10 * n + (c.toNat - '0'.toNat)) 0
    some (if negative then .negative n else .natural n)
  else if isFractional rest then
    some (.fractional (String.ofList word))
  else
    none

/-- The value of a word. -/
def word? (word : List Char) : Option Value :=
  if word = "null".toList then some .null
  else if word = "true".toList then some (.bool true)
  else if word = "false".toList then some (.bool false)
  else (number? word).map .number

/-- Whether a character can be part of a word. -/
def inWord (c : Char) : Bool :=
  c.isAlphanum || c = '+' || c = '-' || c = '.'

/-- Where the reading of a text stands; what has been read of a token is kept backwards. -/
inductive LexState where
  | between
  | word (done : List Char)
  | text (done : List Piece)
  /-- Behind the backslash of an escape. -/
  | escape (done : List Piece)
  /-- Inside an escape by code, with the number of digits that are owed. -/
  | code (done : List Piece) (owed value : Nat)

namespace LexState

/-- Read a character that does not go on with a token. -/
def start? (done : List Token) (c : Char) : Option (LexState × List Token) :=
  if c = ' ' ∨ c = '\n' ∨ c = '\t' ∨ c = '\r' then some (.between, done)
  else if c = '[' then some (.between, .openArray :: done)
  else if c = ']' then some (.between, .closeArray :: done)
  else if c = '\x7b' then some (.between, .openObject :: done)
  else if c = '\x7d' then some (.between, .closeObject :: done)
  else if c = ':' then some (.between, .colon :: done)
  else if c = ',' then some (.between, .comma :: done)
  else if c = '\x22' then some (.text [], done)
  else if inWord c then some (.word [c], done)
  else none

/-- Read a byte, adding the tokens it ends to `done` (read backwards). -/
def step? (done : List Token) (b : UInt8) : LexState → Option (LexState × List Token)
  | .between => start? done (Char.ofNat b.toNat)
  | .word letters =>
      let c := Char.ofNat b.toNat
      if inWord c then
        some (.word (c :: letters), done)
      else
        match word? letters.reverse with
        | some value => start? (.scalar value :: done) c
        | none => none
  | .text pieces =>
      if b = 0x22 then some (.between, .scalar (.string (textOf? pieces.reverse)) :: done)
      else if b = 0x5C then some (.escape pieces, done)
      else if b < 0x20 then none
      else some (.text (.byte b :: pieces), done)
  | .escape pieces =>
      let c := Char.ofNat b.toNat
      if c = 'u' then some (.code pieces 4 0, done)
      else (escape? c).map fun piece => (.text (piece :: pieces), done)
  | .code pieces owed value =>
      (hexDigit? (Char.ofNat b.toNat)).map fun digit =>
        let value := 16 * value + digit
        if owed ≤ 1 then (.text (.unit value :: pieces), done)
        else (.code pieces (owed - 1) value, done)

/-- End the text here. -/
def finish? (done : List Token) : LexState → Option (List Token)
  | .between => some done.reverse
  | .word letters => (word? letters.reverse).map fun value => (.scalar value :: done).reverse
  | _ => none

end LexState

/-- The tokens of the rest of a text, behind those in `done` (read backwards). -/
def tokensOnto? (done : List Token) (state : LexState) : List UInt8 → Option (List Token)
  | [] => state.finish? done
  | b :: rest =>
      match state.step? done b with
      | some (state, done) => tokensOnto? done state rest
      | none => none

/-- The tokens of a text. -/
def tokens? (bytes : List UInt8) : Option (List Token) :=
  tokensOnto? [] .between bytes

end PrefixSearch.Json
