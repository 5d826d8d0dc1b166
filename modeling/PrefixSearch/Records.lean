import PrefixSearch.Config
import PrefixSearch.Entry
import PrefixSearch.Json.Nesting
import PrefixSearch.Text.Alphabet

/-!
# Entry lists

An entry list is a JSON array of records. A record names the position of the record it is an alias
of, while an entry names the ID of an entry. The two differ because records with unsupported
characters, and the aliases of skipped records, are skipped and get no ID.
-/

namespace PrefixSearch

/-- One entry of the list as it is written. -/
structure EntryRecord where
  name : String := ""
  url : String := ""
  kind : Option Kind := none
  /-- The position of the record that this one is an alias of. -/
  aliasOf : Option Nat := none
  deprecated : Bool := false
  deleted : Bool := false
  suffixLength : UInt8 := 0
  keywords : List String := []
deriving DecidableEq, Repr, Inhabited

/-- Why a record is refused. -/
inductive RecordFault where
  | forwardAlias (position target : Nat)
  | aliasWithKind (position : Nat) (kind : Kind)
  | aliasWithoutTarget (position : Nat)
  | noKind (position : Nat)
deriving DecidableEq, Repr

def RecordFault.message : RecordFault → String
  | .forwardAlias position target =>
      s!"entry {position} aliases entry {target}, which does not precede it"
  | .aliasWithKind position kind => s!"entry {position} is an alias but has kind {kind.title}"
  | .aliasWithoutTarget position => s!"entry {position} has kind alias but no alias_of"
  | .noKind position => s!"entry {position} has no kind"

namespace EntryRecord

/-- Whether every text of the record can be indexed. -/
def isSupported (record : EntryRecord) : Bool :=
  match Text.validateAll (record.name :: record.url :: record.keywords) with
  | .ok () => true
  | .error _ => false

/-- The entry with the record's flags, suffix length and keywords. -/
def complete (record : EntryRecord) (entry : Entry) : Entry :=
  let flags := if record.deprecated then entry.flags.setDeprecated else entry.flags
  { entry with
    flags := if record.deleted then flags.setDeleted else flags
    suffixLength := record.suffixLength
    keywords := record.keywords }

/-- The entry of the record at `position`, or nothing if the record is skipped. `ids` has the IDs
that the earlier records were given, nothing for a skipped one. -/
def resolve (ids : Array (Option Id)) (position : Nat) (record : EntryRecord) :
    Except RecordFault (Option Entry) :=
  if !record.isSupported then
    .ok none
  else
    match record.aliasOf, record.kind with
    | some target, none | some target, some .redirect =>
        if position ≤ target then
          .error (.forwardAlias position target)
        else
          .ok ((ids[target]?.bind id).map fun id => record.complete (.aliasTo record.name id))
    | some _, some kind => .error (.aliasWithKind position kind)
    | none, some .redirect => .error (.aliasWithoutTarget position)
    | none, some kind => .ok (some (record.complete { name := record.name, url := record.url, kind }))
    | none, none => .error (.noKind position)

end EntryRecord

/-- The entries that records are resolved to so far. -/
structure Resolution where
  /-- The ID of each record, nothing for a skipped one. -/
  ids : Array (Option Id) := #[]
  entries : Array Entry := #[]
  /-- The number of skipped records. -/
  skipped : Nat := 0
deriving DecidableEq, Repr, Inhabited

namespace Resolution

/-- Resolve the next record. -/
def step (r : Resolution) (record : EntryRecord) : Except RecordFault Resolution := do
  match ← record.resolve r.ids r.ids.size with
  | none => return { r with ids := r.ids.push none, skipped := r.skipped + 1 }
  | some entry =>
      return { r with
        ids := r.ids.push (some r.entries.size)
        entries := r.entries.push entry }

end Resolution

/-- Resolve records to entries, in their order. -/
def resolveRecords (records : List EntryRecord) : Except RecordFault Resolution :=
  records.foldlM Resolution.step {}

namespace Json.Value

def kind? (value : Value) : Option Kind :=
  value.name?.bind Kind.ofName?

def width? {α : Type} [WidthClass α] (value : Value) : Option α :=
  value.name?.bind widthOfName?

def byte? (value : Value) : Option UInt8 :=
  (value.nat? 256).map UInt8.ofNat

/-- The largest size that can be written, plus one. A size has eight bytes. -/
def sizeLimit : Nat := Bytes.capacity 8

/-- The record written as a structure that has no other fields. -/
def record? (value : Value) : Option EntryRecord := do
  let places ← value.fields?
    ["name", "url", "kind", "alias_of", "deprecated", "deleted", "suffix_length", "keywords"] true
  return {
    name := ← readField? places 0 text? ""
    url := ← readField? places 1 text? ""
    kind := ← readField? places 2 (orNull? kind?) none
    aliasOf := ← readField? places 3 (orNull? (nat? sizeLimit)) none
    deprecated := ← readField? places 4 bool? false
    deleted := ← readField? places 5 bool? false
    suffixLength := ← readField? places 6 byte? 0
    keywords := ← readField? places 7 (fun value => value.items?.bind (·.mapM text?)) [] }

/-- The configuration written as a structure that may have other fields. -/
def config? (value : Value) : Option Config := do
  let places ← value.fields?
    ["symbol_prefix", "case_insensitive", "max_prefix_results", "index_scope_suffixes",
      "scope_separator", "min_name_width", "min_result_id_width", "min_offset_width",
      "filename_prefix", "parallel_chunk_size"] false
  let standard : Config := {}
  return {
    symbolPrefix := ← readField? places 0 text? standard.symbolPrefix
    caseInsensitive := ← readField? places 1 bool? standard.caseInsensitive
    maxCompletions := ← readField? places 2 (nat? sizeLimit) standard.maxCompletions
    indexScopeSuffixes := ← readField? places 3 bool? standard.indexScopeSuffixes
    scopeSeparator := ← readField? places 4 text? standard.scopeSeparator
    minNameWidth := ← readField? places 5 width? standard.minNameWidth
    minIdWidth := ← readField? places 6 width? standard.minIdWidth
    minOffsetWidth := ← readField? places 7 width? standard.minOffsetWidth
    filenamePrefix := ← readField? places 8 text? standard.filenamePrefix
    parallelChunkSize := ← readField? places 9 (nat? sizeLimit) standard.parallelChunkSize }

end Json.Value

/-- The configuration in the text of a configuration file. -/
def Config.parse? (bytes : List UInt8) : Option Config :=
  (Json.parse? bytes).bind Json.Value.config?

/-- The records in the text of an entry list. -/
def EntryRecord.parseList? (bytes : List UInt8) : Option (List EntryRecord) := do
  (← (← Json.parse? bytes).items?).mapM Json.Value.record?

end PrefixSearch
