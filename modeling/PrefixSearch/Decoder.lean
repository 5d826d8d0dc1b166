import PrefixSearch.Bytes.Reader
import PrefixSearch.Encoding

/-!
# Reading search data

A file is looked into without being unpacked: a query reads the nodes on its way and the records of
the results it finds. The bytes may come from anywhere, so every read is checked, and a fault is
reported as what it is. Children lie behind their parents, which bounds the way of every query, and
a walk may visit no more nodes than the tree has bytes.
-/

namespace PrefixSearch

open Bytes (Reader Source)

/-- Search data whose header has been read. -/
structure SearchData where
  data : Array UInt8
  version : UInt8
  widths : Widths
  flags : UInt8
  resultCount : Nat
  resultsOffset : Nat
  /-- The first byte behind the table of record offsets. -/
  recordsOffset : Nat
  trieOffset : Nat
  symbolPrefix : String
  typeMap : List TypeRow

/-- A record of the result table as it is stored. -/
structure Record where
  flags : Flags
  kind : Kind
  target : Option Id
  suffixLength : UInt8
  name : String
  url : String
deriving DecidableEq, Repr

/-- A result with the URL and the kind of the entry it resolves to. -/
structure SearchResult where
  id : Id
  name : String
  url : String
  kind : Kind
  cssClass : CssClass
  label : String
  deprecated : Bool
  deleted : Bool
  suffixLength : UInt8
  target : Option Id
deriving DecidableEq, Repr

/-- A node as it is stored: children by first byte and absolute offset. -/
structure StoredNode where
  offset : Nat
  label : List UInt8
  children : List (UInt8 × Nat)
  hits : Hits
deriving DecidableEq, Repr

/-- Read a row of the type map. -/
def readTypeRow (w : Widths) : Reader TypeRow := do
  let tag ← Reader.uint 1
  let code ← Reader.uint 1
  let label ← Reader.text w.nameBytes
  let kind ← Reader.require (Kind.ofTag? (UInt8.ofNat tag)) (.unknownTypeMapTag tag)
  let cssClass ← Reader.require (CssClass.ofCode? (UInt8.ofNat code)) (.unknownCssClass code)
  return { kind, cssClass, label }

/-- Read the type map. -/
def readTypeMap (w : Widths) : Reader (List TypeRow) := do
  let count ← Reader.uint 1
  Reader.replicate (readTypeRow w) count

/-- Read the selectors of the widths. -/
def readWidths : Reader Widths := do
  let nameSelector ← Reader.uint 1
  let idSelector ← Reader.uint 1
  let offsetSelector ← Reader.uint 1
  let name ← Reader.require (WidthClass.ofSelector? (UInt8.ofNat nameSelector))
    (.unknownNameWidth nameSelector)
  let id ← Reader.require (WidthClass.ofSelector? (UInt8.ofNat idSelector))
    (.unknownIdWidth idSelector)
  let offset ← Reader.require (WidthClass.ofSelector? (UInt8.ofNat offsetSelector))
    (.unknownOffsetWidth offsetSelector)
  return { name, id, offset }

namespace SearchData

/-- Read the header behind signature and version, and check the sections. -/
def readHeader (data : Array UInt8) (version : UInt8) : Reader SearchData := do
  let widths ← readWidths
  let flags ← Reader.uint 1
  let resultCount ← Reader.uint 4
  let typeMapOffset ← Reader.uint 4
  let resultsOffset ← Reader.uint 4
  let trieOffset ← Reader.uint 4
  let symbolPrefix ← Reader.text widths.nameBytes
  let headerEnd ← Reader.position
  Reader.check (resultCount < widths.id.sentinel)
    (.tooManyResults resultCount (WidthClass.bits widths.id))
  Reader.check (headerEnd ≤ typeMapOffset ∧ typeMapOffset ≤ resultsOffset ∧
    resultsOffset ≤ trieOffset ∧ trieOffset < data.size) .sectionsOutOfOrder
  let recordsOffset := resultsOffset + (resultCount + 1) * widths.offsetBytes
  Reader.check (recordsOffset ≤ trieOffset) .resultOffsetsOverlapTrie
  let typeMap ← fun source _ => readTypeMap widths source typeMapOffset
  return {
    data, version, widths, flags := UInt8.ofNat flags, resultCount, resultsOffset, recordsOffset,
    trieOffset, symbolPrefix, typeMap }

/-- Take bytes for search data. -/
def parse (data : Array UInt8) : Except DecodeError SearchData :=
  match data[3]? with
  | none => .error .invalidSignature
  | some version =>
      if (Source.ofArray data).slice? 0 3 ≠ some signature then
        .error .invalidSignature
      else if version ≠ formatVersion then
        .error (.unsupportedVersion version.toNat formatVersion.toNat)
      else
        ((readHeader data version).run (.ofArray data) 4).mapError .corrupt

def caseInsensitive (d : SearchData) : Bool :=
  d.flags &&& caseFlag != 0

/-- The number of bytes. -/
def size (d : SearchData) : Nat :=
  d.data.size

def isEmpty (d : SearchData) : Bool :=
  d.resultCount == 0

/-- All of the file. -/
def source (d : SearchData) : Source :=
  .ofArray d.data

/-- Read an ID of the file. -/
def readId (d : SearchData) : Reader Id := do
  let id ← Reader.uint d.widths.idBytes
  Reader.check (id < d.resultCount) (.idOutOfRange id)
  return id

/-- Read a set of results. -/
def readIds (d : SearchData) : Reader (List Id) := do
  let count ← Reader.uint d.widths.idBytes
  Reader.check (count ≤ d.resultCount) (.oversizedSet count d.resultCount)
  Reader.replicate d.readId count

/-- Read a reference of the node at `offset` to a child. -/
def readChild (d : SearchData) (offset : Nat) : Reader (UInt8 × Nat) := do
  let first ← Reader.uint 1
  let child ← Reader.uint d.widths.offsetBytes
  Reader.check (offset < child ∧ child < d.size) (.badChildOffset child offset)
  return (UInt8.ofNat first, child)

/-- Read the node at `offset`. -/
def readNode (d : SearchData) (offset : Nat) : Reader StoredNode := do
  let length ← Reader.uint d.widths.nameBytes
  let label ← Reader.bytes length
  let count ← Reader.uint 1
  let children ← Reader.replicate (d.readChild offset) count
  let exact ← d.readIds
  let completions ← d.readIds
  return { offset, label, children, hits := { exact, completions } }

/-- The node at an offset. -/
def node (d : SearchData) (offset : Nat) : Except Corruption StoredNode :=
  if offset < d.trieOffset then
    .error (.nodeBeforeTrie offset)
  else
    (d.readNode offset).run d.source offset

/-- Read a record of the result `id`. -/
def readRecord (d : SearchData) (id : Id) : Reader Record := do
  let flags ← Reader.uint 1
  let tag ← Reader.uint 1
  let kind ← Reader.require (Kind.ofTag? (UInt8.ofNat tag)) (.unknownTag tag)
  let reference ← Reader.uint d.widths.idBytes
  let suffixLength ← Reader.uint 1
  let name ← Reader.text d.widths.nameBytes
  let url ← Reader.text d.widths.nameBytes
  let target := if reference = d.widths.id.sentinel then none else some reference
  Reader.check ((kind = .redirect) = (target.isSome = true)) (.inconsistentAlias id)
  return {
    flags := ⟨UInt8.ofNat flags⟩, kind, target, suffixLength := UInt8.ofNat suffixLength, name, url }

/-- The record of a result, which may not reach behind its end. -/
def record (d : SearchData) (id : Id) : Except Corruption Record := do
  if d.resultCount ≤ id then
    throw (.idOutOfRange id)
  let width := d.widths.offsetBytes
  let slot := d.resultsOffset + id * width
  let some start := d.source.uint? slot width | throw .truncatedResultOffsets
  let some stop := d.source.uint? (slot + width) width | throw .truncatedResultOffsets
  if start < d.recordsOffset ∨ stop < start ∨ d.trieOffset < stop then
    throw (.badRecordBounds id)
  (d.readRecord id).run { d.source with stop } start

/-- Follow the aliases from a record of the result `id`, at most `hops` of them. -/
def target (d : SearchData) (id : Id) (hops : Nat) (record : Record) :
    Except Corruption Record :=
  match record.kind, record.target with
  | .redirect, some next =>
      match hops with
      | 0 => .error (.aliasCycle id)
      | hops + 1 => do d.target id hops (← d.record next)
  | _, _ => .ok record

/-- The result with the ID. Name, flags and suffix length are its own, the rest is that of the
entry it resolves to. -/
def result (d : SearchData) (id : Id) : Except Corruption SearchResult := do
  let record ← d.record id
  let resolved ← d.target id d.resultCount record
  match d.typeMap.find? (·.kind = resolved.kind) with
  | none => throw (.kindNotInTypeMap resolved.kind)
  | some row =>
      return {
        id, name := record.name, url := resolved.url, kind := resolved.kind
        cssClass := row.cssClass, label := row.label
        deprecated := record.flags.isDeprecated, deleted := record.flags.isDeleted
        suffixLength := record.suffixLength, target := record.target }

theorem children_of_readNode {d : SearchData} {offset pos after : Nat} {node : StoredNode}
    (h : d.readNode offset d.source pos = (.ok node, after)) :
    ∀ child ∈ node.children, offset < child.2 ∧ child.2 < d.size := by
  obtain ⟨_, _, _, h⟩ := Reader.bind_eq_ok h
  obtain ⟨_, _, _, h⟩ := Reader.bind_eq_ok h
  obtain ⟨_, _, _, h⟩ := Reader.bind_eq_ok h
  obtain ⟨children, _, found, h⟩ := Reader.bind_eq_ok h
  obtain ⟨_, _, _, h⟩ := Reader.bind_eq_ok h
  obtain ⟨_, _, _, h⟩ := Reader.bind_eq_ok h
  cases h
  refine Reader.forall_mem_of_replicate ?_ found
  intro pos child after h
  obtain ⟨_, _, _, h⟩ := Reader.bind_eq_ok h
  obtain ⟨_, _, _, h⟩ := Reader.bind_eq_ok h
  obtain ⟨_, _, checked, h⟩ := Reader.bind_eq_ok h
  cases h
  unfold Reader.check at checked
  split at checked
  · assumption
  · cases checked

/-- The children of a node lie behind it and inside the data. -/
theorem children_of_node {d : SearchData} {offset : Nat} {node : StoredNode}
    (h : d.node offset = .ok node) : ∀ child ∈ node.children, offset < child.2 ∧ child.2 < d.size := by
  unfold SearchData.node at h
  split at h
  · cases h
  · exact children_of_readNode (Prod.ext h rfl)

end SearchData

/-- The offset of the first child that is listed for a byte. -/
def StoredNode.child? (node : StoredNode) (first : UInt8) : Option Nat :=
  (node.children.find? (·.1 = first)).map (·.2)

namespace SearchData

theorem child?_of_node {d : SearchData} {offset child : Nat} {first : UInt8} {node : StoredNode}
    (read : d.node offset = .ok node) (found : node.child? first = some child) :
    offset < child ∧ child < d.size := by
  obtain ⟨entry, listed, rfl⟩ := Option.map_eq_some_iff.1 found
  exact children_of_node read entry (List.mem_of_find?_eq_some listed)

/-- What a text finds at a node that is reached by an edge, the text beginning with what the edge
has to match. A text that ends inside the label finds the completions of the node, and nothing
exactly. -/
def enter (d : SearchData) (offset : Nat) (text : List UInt8) : Except Corruption Hits :=
  match _ : d.node offset with
  | .error fault => .error fault
  | .ok node =>
      let shared := sharedLength node.label text
      if shared < node.label.length then
        .ok (if shared = text.length then { completions := node.hits.completions } else {})
      else
        match text.drop shared with
        | [] => .ok node.hits
        | first :: rest =>
            match _ : node.child? first with
            | none => .ok {}
            | some child => d.enter child (first :: rest)
termination_by d.size - offset
decreasing_by
  have := child?_of_node ‹d.node offset = .ok node› ‹node.child? first = some child›
  omega

/-- What a text finds, given as it is compared. The label of the root does not count. -/
def lookupBytes (d : SearchData) (text : List UInt8) : Except Corruption Hits := do
  let root ← d.node d.trieOffset
  match text with
  | [] => return root.hits
  | first :: _ =>
      match root.child? first with
      | none => return {}
      | some child => d.enter child text

/-- What a text finds. -/
def lookup (d : SearchData) (query : String) : Except Corruption Hits :=
  d.lookupBytes (Text.utf8 (Text.normalize d.caseInsensitive query))

/-- The results of a query: exact ones first, then the other completions. -/
def query (d : SearchData) (query : String) : Except Corruption (List SearchResult) := do
  (← d.lookup query).ordered.mapM d.result

/-- Visit the nodes that are waiting, with their depths, and everything below them in depth-first
order, at most `budget` nodes in all. -/
def walkFrom {σ : Type} (d : SearchData) (visit : σ → Nat → StoredNode → σ) :
    (budget : Nat) → (waiting : List (Nat × Nat)) → σ → Except Corruption σ
  | _, [], state => .ok state
  | 0, _ :: _, _ => .error .tooManyNodes
  | budget + 1, (depth, offset) :: waiting, state =>
      match d.node offset with
      | .error fault => .error fault
      | .ok node =>
          d.walkFrom visit budget (node.children.map (fun child => (depth + 1, child.2)) ++ waiting)
            (visit state depth node)

/-- Visit all nodes in depth-first order with their depths. A subtree that is shared is visited
once for each way to it, but there are no more visits than the tree has bytes. -/
def walk {σ : Type} (d : SearchData) (visit : σ → Nat → StoredNode → σ) (state : σ) :
    Except Corruption σ :=
  d.walkFrom visit (d.size - d.trieOffset) [(0, d.trieOffset)] state

/-- The visited nodes with their depths. -/
def nodes (d : SearchData) : Except Corruption (List (Nat × StoredNode)) :=
  return (← d.walk (fun done depth node => (depth, node) :: done) []).reverse

end SearchData

end PrefixSearch
