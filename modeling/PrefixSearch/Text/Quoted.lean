import PrefixSearch.Text.GraphemeExtend
import PrefixSearch.Text.Unprintable

/-!
# Quoted text

How messages and dumps show a text: between quotation marks, with the usual escapes, and with the
code point instead of the character where the character cannot be seen or would combine with the
one before it.
-/

namespace PrefixSearch.Text

/-- The lower-case hexadecimal digits of a number. -/
def hexDigits (n : Nat) : String :=
  String.ofList (Nat.toDigits 16 n)

/-- The halfwidth voiced and semi-voiced sound marks. They extend the character before them, but
each has a cell of its own, so it can be shown as it is. -/
def halfwidthSoundMarks : Ranges := [(0xFF9E, 0xFF9F)]

/-- The fillers of the Hangul blocks: letters by their category, but drawn as nothing. -/
def hangulFillers : Ranges :=
  [(0x115F, 0x1160), (0x3164, 0x3164), (0xFFA0, 0xFFA0)]

/-- Whether the character would be drawn onto the one before it. -/
def isCombining (c : Char) : Bool := isGraphemeExtend c && !halfwidthSoundMarks.holds c

/-- Whether nothing would be seen of the character. -/
def isInvisible (c : Char) : Bool := isUnprintable c || hangulFillers.holds c

/-- One character of a text quoted with `mark`. -/
def escaped (mark c : Char) : String :=
  if c = '\x00' then "\\0"
  else if c = '\t' then "\\t"
  else if c = '\n' then "\\n"
  else if c = '\r' then "\\r"
  else if c = '\\' || c = mark then String.ofList ['\\', c]
  else if isCombining c || isInvisible c then
    "\\u\x7b" ++ hexDigits c.toNat ++ "\x7d"
  else
    String.singleton c

/-- The text between two double quotation marks. -/
def quoted (s : String) : String :=
  "\"" ++ String.join (s.toList.map (escaped '\x22')) ++ "\""

/-- The character between two single quotation marks. -/
def quotedChar (c : Char) : String :=
  "\x27" ++ escaped '\x27' c ++ "\x27"

end PrefixSearch.Text
