import PrefixSearch.Decoder
import PrefixSearch.Text.Quoted

/-!
# Summary of a file

The header and the shape of the tree, as the `stats` command shows them.
-/

namespace PrefixSearch

/-- The shape of a stored tree. -/
structure TrieShape where
  nodeCount : Nat := 0
  maxDepth : Nat := 0
  maxChildren : Nat := 0
  maxExact : Nat := 0
  maxCompletions : Nat := 0
  maxLabel : Nat := 0
deriving DecidableEq, Repr

/-- Take a node into account. -/
def TrieShape.visit (shape : TrieShape) (depth : Nat) (node : StoredNode) : TrieShape :=
  { nodeCount := shape.nodeCount + 1
    maxDepth := max shape.maxDepth depth
    maxChildren := max shape.maxChildren node.children.length
    maxExact := max shape.maxExact node.hits.exact.length
    maxCompletions := max shape.maxCompletions node.hits.completions.length
    maxLabel := max shape.maxLabel node.label.length }

/-- The shape of the file's tree. -/
def SearchData.trieShape (d : SearchData) : Except Corruption TrieShape :=
  d.walk TrieShape.visit {}

namespace Report

/-- The quotient rounded to the nearest integer, halves to the even neighbour. -/
def roundDiv (a b : Nat) : Nat :=
  let q := a / b
  let r := 2 * (a % b)
  if r < b then q else if b < r then q + 1 else q + q % 2

/-- A number of bytes in a unit, with two decimal places. -/
def inUnit (bytes unit : Nat) (name : String) : String :=
  let hundredths := roundDiv (100 * bytes) unit
  let digits := fun n => String.ofList [Nat.digitChar (n / 10 % 10), Nat.digitChar (n % 10)]
  s!"{hundredths / 100}.{digits hundredths} {name}"

/-- A number of bytes for people: in bytes below 1 kB, in kB below 1 MB, and in MB from there. -/
def size (bytes : Nat) : String :=
  if bytes < 1024 then s!"{bytes} B"
  else if bytes < 1024 * 1024 then inUnit bytes 1024 "kB"
  else inUnit bytes (1024 * 1024) "MB"

/-- Fill up with spaces at the right, by characters. -/
def padRight (width : Nat) (s : String) : String :=
  String.ofList (List.rightpad width ' ' s.toList)

/-- Fill up with spaces at the left, by characters. -/
def padLeft (width : Nat) (s : String) : String :=
  String.ofList (List.leftpad width ' ' s.toList)

/-- One line of the summary. -/
def line (name value : String) : String :=
  padRight 20 (name ++ ":") ++ value ++ "\n"

/-- The lines on the kinds of the results, if there are any. -/
def kinds (rows : List TypeRow) : String :=
  if rows.isEmpty then ""
  else
    "\nKinds:\n" ++ String.join (rows.map fun row =>
      s!"  {padRight 10 row.label} {row.cssClass.className}\n")

/-- The header and the shape of the tree of a file. -/
def summary (d : SearchData) : Except Corruption String := do
  let shape ← d.trieShape
  return "Search Data Statistics\n======================\n\n" ++
    line "Format version" s!"{d.version} (supported: {formatVersion})" ++
    line "Size" (size d.size) ++
    line "Widths" d.widths.describe ++
    line "Case-insensitive" (toString d.caseInsensitive) ++
    line "Symbol prefix" (Text.quoted d.symbolPrefix) ++
    line "Results" (toString d.resultCount) ++
    "\n" ++
    line "Trie nodes" (toString shape.nodeCount) ++
    line "Max depth" (toString shape.maxDepth) ++
    line "Max children" (toString shape.maxChildren) ++
    line "Max exact results" (toString shape.maxExact) ++
    line "Max prefix results" (toString shape.maxCompletions) ++
    line "Max label length" (toString shape.maxLabel) ++
    kinds d.typeMap

end Report

end PrefixSearch
