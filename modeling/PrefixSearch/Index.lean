import PrefixSearch.Config
import PrefixSearch.Text.Alphabet
import PrefixSearch.Text.Lowercase
import PrefixSearch.Text.Scope
import PrefixSearch.Text.Utf8
import PrefixSearch.Trie.Graft

/-!
# The index under construction

An index is a result table and the prefix tree of the texts that lead to its entries. An entry is
found by its normalized name and by the scope suffixes of that, exactly, and by its keywords, as a
completion. Every operation either gives the changed index or says why it is refused, and a
refused one changes nothing.
-/

namespace PrefixSearch

/-- Why an operation on an index is refused. -/
inductive IndexError where
  | unsupported (fault : Text.UnsupportedCharacter)
  | misuse (fault : Misuse)
deriving DecidableEq, Repr

def IndexError.message : IndexError → String
  | .unsupported fault => fault.message
  | .misuse fault => fault.message

structure Index where
  config : Config
  table : ResultTable
  trie : Trie

namespace Index

/-- An index without entries. -/
def empty (config : Config) : Index :=
  { config, table := {}, trie := { bound := config.maxCompletions } }

/-- Text as this index keeps and looks it up. -/
def normalize (index : Index) (text : String) : String :=
  Text.normalize index.config.caseInsensitive text

/-- What a text finds. -/
def lookup (index : Index) (text : String) : Hits :=
  index.trie.lookup (Text.utf8 (index.normalize text))

variable [Search]

/-- Merge the entry `gone` into `kept`: it becomes an alias of `kept`, which also takes its place
in the tree. -/
def mergeDuplicate (index : Index) (kept gone : Id) : Except Misuse Index := do
  let table ← index.table.mergeInto kept gone
  return { index with table, trie := index.trie.replace table gone kept }

/-- Add a tree over the index's own table. -/
def mergeTrie (index : Index) (other : Trie) : Index :=
  { index with trie := index.trie.merge index.table other }

/-- The texts that lead to a new entry with the given normalized name and keywords. -/
def termsOf (config : Config) (id : Id) (name : String) (keywords : List String) : List Term :=
  let scopes := if config.indexScopeSuffixes then Text.scopeSuffixes config.scopeSeparator name
    else []
  (name :: scopes).map (fun text => { text := Text.utf8 text, id, exact := true }) ++
    keywords.map fun text => { text := Text.utf8 text, id, exact := false }

/-- The texts of an entry that are checked and kept. -/
def textsOf (entry : Entry) : List String :=
  entry.name :: entry.url :: entry.keywords

/-- The earlier entry that a new one is the same as. An alias is never the same as another entry. -/
def duplicateOf? (index : Index) (entry : Entry) : Option Id :=
  if entry.isAlias then none else index.table.find? (index.normalize entry.name) entry.url

/-- Append an entry to the table, merge it into an earlier one if it is the same, and give its
canonical ID and the texts that still have to be added to the tree for it. -/
def register (index : Index) (entry : Entry) : Except IndexError (Id × List Term × Index) := do
  (Text.validateAll (textsOf entry)).mapError .unsupported
  let name := index.normalize entry.name
  let keywords := entry.keywords.map index.normalize
  let (id, table) ← (index.table.push entry).mapError .misuse
  match index.duplicateOf? entry with
  | some kept =>
      let index ← (mergeDuplicate { index with table } kept id).mapError .misuse
      let terms := keywords.map fun text => { text := Text.utf8 text, id := kept, exact := false }
      return (kept, terms, index)
  | none =>
      let table := if entry.isAlias then table else table.register name id
      return (id, termsOf index.config id name keywords, { index with table })

/-- Add an entry and index it. An entry that is the same as an earlier one is kept as an alias of
it, and the earlier ID is given. -/
def add (index : Index) (entry : Entry) : Except IndexError (Id × Index) := do
  let (id, terms, index) ← index.register entry
  return (id, { index with trie := index.trie.insertAll index.table terms })

/-- Add an alias named `name` of the entry `target`. -/
def addAlias (index : Index) (name : String) (target : Id) : Except IndexError (Id × Index) :=
  index.add (.aliasTo name target)

/-- Append an entry to the table without a text that leads to it. -/
def pushEntry (index : Index) (entry : Entry) : Except IndexError (Id × Index) := do
  (Text.validateAll [entry.name, entry.url]).mapError .unsupported
  let (id, table) ← (index.table.push entry).mapError .misuse
  return (id, { index with table })

/-- Add a text for an entry of the table, or for the entry it was merged into. -/
def insert (index : Index) (text : String) (id : Id) (exact : Bool) :
    Except IndexError Index := do
  if index.table.size ≤ id then
    throw (.misuse (.notInTable id))
  (Text.validate text).mapError .unsupported
  let term : Term :=
    { text := Text.utf8 (index.normalize text), id := index.table.canonicalId id, exact }
  return { index with trie := index.trie.insert index.table term }

/-- Add entries, one after the other. -/
def addAll (index : Index) (entries : List Entry) : Except IndexError Index :=
  entries.foldlM (fun index entry => return (← index.add entry).2) index

/-- Register entries, one after the other, and collect the texts that lead to them. -/
def registerAll (index : Index) (entries : List Entry) : Except IndexError (List Term × Index) :=
  entries.foldlM
    (fun (terms, index) entry => do
      let (_, more, index) ← index.register entry
      return (terms ++ more, index))
    ([], index)

/-- Add texts in parts of `size` (but at least one), each by a tree of its own. -/
def mergeParts (table : ResultTable) (size : Nat) (terms : List Term) (trie : Trie) : Trie :=
  if terms = [] then
    trie
  else
    let part := ({ bound := trie.bound } : Trie).insertAll table (terms.take (max size 1))
    mergeParts table size (terms.drop (max size 1)) (trie.merge table part)
termination_by terms.length
decreasing_by
  have : 0 < terms.length := List.length_pos_iff.2 (by assumption)
  simp only [List.length_drop]
  omega

/-- The index of a list of entries, its tree put together from parts that do not depend on each
other. -/
def buildInParts (config : Config) (entries : List Entry) : Except IndexError Index := do
  let (terms, index) ← (empty config).registerAll entries
  return { index with
    trie := mergeParts index.table config.parallelChunkSize terms index.trie }

end Index

end PrefixSearch
