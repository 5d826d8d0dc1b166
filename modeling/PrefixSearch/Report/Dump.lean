import PrefixSearch.Decoder
import PrefixSearch.Text.Quoted

/-!
# Dump of a file

The whole tree and the whole result table, as the `dump` command shows them. A line of the tree is
the label, indented by depth, the exact results and, behind a bar, the completions. A line of the
table is the ID, the name, what there is to say about the result, and the URL.
-/

namespace PrefixSearch.Report

/-- A set of results between brackets. -/
def ids (set : List Id) : String :=
  "[" ++ String.intercalate ", " (set.map toString) ++ "]"

def nodeLine (depth : Nat) (node : StoredNode) : String :=
  String.ofList (List.replicate (2 * depth) ' ') ++ Text.quoted (Text.ofUtf8Lossy node.label) ++
    s!" {ids node.hits.exact} | {ids node.hits.completions}\n"

/-- What there is to say about a result. -/
def remarks (result : SearchResult) : List String :=
  [result.label] ++
    (if result.deprecated then ["deprecated"] else []) ++
    (if result.deleted then ["deleted"] else []) ++
    (if result.suffixLength = 0 then [] else [s!"suffix_length={result.suffixLength}"]) ++
    (match result.target with
      | some target => [s!"alias of {target}"]
      | none => [])

def resultLine (result : SearchResult) : String :=
  let remarked := String.intercalate ", " (remarks result)
  s!"{result.id}: {result.name} [{remarked}] -> {result.url}\n"

/-- The whole tree and the whole result table of a file. -/
def dump (d : SearchData) : Except Corruption String := do
  let nodes ← d.nodes
  let results ← (List.range d.resultCount).mapM d.result
  return String.join (nodes.map fun node => nodeLine node.1 node.2) ++
    String.join (results.map resultLine)

end PrefixSearch.Report
