import PrefixSearch.Base85

/-!
# Search data as a script

A search page that cannot load binary files loads a script instead, which hands it the data as
base85 text.
-/

namespace PrefixSearch.Script

/-- The first line of every script. -/
def header : String :=
  "/* Generated by searchdex. Do not edit. */"

/-- What comes before the encoded data. -/
def opening : List Char :=
  "Search.load('".toList

/-- The rest of a text behind the first occurrence of `pattern`. -/
def afterFirst? (pattern : List Char) : List Char → Option (List Char)
  | [] => if pattern = [] then some [] else none
  | c :: cs =>
      if pattern.isPrefixOf (c :: cs) then some ((c :: cs).drop pattern.length)
      else afterFirst? pattern cs

/-- Wrap encoded data into a script. -/
def encode (data : List UInt8) : String :=
  header ++ "\n" ++ String.ofList opening ++ Base85.encode data ++ "');\n"

/-- The data in a script, with the zero bytes that fill up its last group: what stands between the
first opening and the quotation mark that follows it. -/
def decode? (script : String) : Option (List UInt8) := do
  let rest ← afterFirst? opening script.toList
  if rest.contains '\x27' then
    Base85.decode? (String.ofList (rest.takeWhile (· ≠ '\x27')))
  else
    none

end PrefixSearch.Script
