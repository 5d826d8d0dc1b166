import PrefixSearch.Text.Quoted

/-!
# The supported alphabet

Any character can be indexed but a control character: it cannot be typed into a search box, and a
NUL would be ambiguous in the generated script.
-/

namespace PrefixSearch.Text

/-- The control characters: U+0000 to U+001F and U+007F to U+009F. -/
def isControl (c : Char) : Bool :=
  c.toNat < 0x20 || (0x7F ≤ c.toNat && c.toNat < 0xA0)

/-- A character outside the alphabet, with the text and the byte position it was found at. -/
structure UnsupportedCharacter where
  text : String
  character : Char
  position : Nat
deriving DecidableEq, Repr

def UnsupportedCharacter.message (u : UnsupportedCharacter) : String :=
  s!"unsupported character {quotedChar u.character} at byte {u.position} in {quoted u.text}"

/-- The first control character and its byte position, the first character being at `position`. -/
def firstControl? (position : Nat) : List Char → Option (Nat × Char)
  | [] => none
  | c :: cs => if isControl c then some (position, c) else firstControl? (position + c.utf8Size) cs

/-- Accept a text that has no control character, and report the first one otherwise. -/
def validate (text : String) : Except UnsupportedCharacter Unit :=
  match firstControl? 0 text.toList with
  | none => .ok ()
  | some (position, character) => .error { text, character, position }

/-- Accept a list of texts if each is accepted, and report the first fault otherwise. -/
def validateAll (texts : List String) : Except UnsupportedCharacter Unit :=
  texts.forM validate

end PrefixSearch.Text
