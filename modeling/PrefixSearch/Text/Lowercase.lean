import PrefixSearch.Text.Cased
import PrefixSearch.Text.CaseIgnorable
import PrefixSearch.Text.CaseRuns

/-!
# Lowercase

Full Unicode lowercase. Every character is mapped on its own but for the Greek capital sigma,
whose small form depends on its neighbours: `ς` at the end of a word and `σ` elsewhere. So the
lowercase of a part of a text need not be a part of the text's lowercase.
-/

namespace PrefixSearch.Text

/-- The small form of a character taken on its own. `İ` is the only one that has two characters. -/
def lowerChar (c : Char) : List Char :=
  if c.toNat < 0x80 then
    [c.toLower]
  else if c.toNat = 0x130 then
    ['i', Char.ofNat 0x307]
  else
    [((caseRuns.findSome? (·.lower? c.toNat)).map Char.ofNat).getD c]

/-- Whether the first character that counts for case is cased. -/
def leadsToCased (cs : List Char) : Bool :=
  match cs.dropWhile isCaseIgnorable with
  | [] => false
  | c :: _ => isCased c

/-- The small form of a character between two texts, the one before it read backwards. A sigma is
final if a cased character comes before it and none after it. -/
def lowerBetween (before : List Char) (c : Char) (after : List Char) : List Char :=
  if c = 'Σ' then
    [if leadsToCased before && !leadsToCased after then 'ς' else 'σ']
  else
    lowerChar c

/-- Lowercase what follows `before` (read backwards) and put it behind `done` (read backwards). -/
def lowercaseOnto (done before : List Char) : List Char → List Char
  | [] => done.reverse
  | c :: after =>
      lowercaseOnto ((lowerBetween before c after).reverse ++ done) (c :: before) after

/-- The lowercase of a text. -/
def lowercase (s : String) : String :=
  String.ofList (lowercaseOnto [] [] s.toList)

/-- Text as it is indexed and looked up: lowercase unless case counts. -/
def normalize (caseInsensitive : Bool) (s : String) : String :=
  if caseInsensitive then lowercase s else s

end PrefixSearch.Text
