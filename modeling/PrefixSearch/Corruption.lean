import PrefixSearch.Kind

/-!
# What can be wrong with search data

The faults a decoder reports, each with the numbers that locate it, and their wording.
-/

namespace PrefixSearch

/-- A fault in a file that has the signature and the version of search data. -/
inductive Corruption where
  /-- The data ends before the field at this offset does. -/
  | unexpectedEnd (offset : Nat)
  /-- The text at this offset is not UTF-8. -/
  | invalidUtf8 (offset : Nat)
  | unknownNameWidth (selector : Nat)
  | unknownIdWidth (selector : Nat)
  | unknownOffsetWidth (selector : Nat)
  /-- The result count reaches the ID that means "no alias". -/
  | tooManyResults (count bits : Nat)
  | sectionsOutOfOrder
  | resultOffsetsOverlapTrie
  | unknownTypeMapTag (tag : Nat)
  | unknownCssClass (code : Nat)
  | nodeBeforeTrie (offset : Nat)
  /-- A child is not behind its parent and inside the data. -/
  | badChildOffset (child node : Nat)
  /-- A set has more IDs than there are results. -/
  | oversizedSet (count results : Nat)
  | idOutOfRange (id : Nat)
  | truncatedResultOffsets
  /-- A record is not between the offset table and the trie. -/
  | badRecordBounds (id : Nat)
  | unknownTag (tag : Nat)
  /-- A record has an alias target but not the kind for it, or the kind but no target. -/
  | inconsistentAlias (id : Nat)
  | aliasCycle (id : Nat)
  | kindNotInTypeMap (kind : Kind)
  /-- A walk visits more nodes than the trie has bytes. -/
  | tooManyNodes
deriving DecidableEq, Repr

def Corruption.message : Corruption → String
  | .unexpectedEnd offset => s!"unexpected end of data at offset {offset}"
  | .invalidUtf8 offset => s!"invalid UTF-8 at offset {offset}"
  | .unknownNameWidth selector => s!"unknown name width {selector}"
  | .unknownIdWidth selector => s!"unknown result ID width {selector}"
  | .unknownOffsetWidth selector => s!"unknown offset width {selector}"
  | .tooManyResults count bits => s!"{count} results do not fit {bits} bit IDs"
  | .sectionsOutOfOrder => "section offsets out of order"
  | .resultOffsetsOverlapTrie => "result offsets overlap the trie"
  | .unknownTypeMapTag tag => s!"unknown kind tag {tag} in type map"
  | .unknownCssClass code => s!"unknown css class {code}"
  | .nodeBeforeTrie offset => s!"node offset {offset} is before the trie"
  | .badChildOffset child node => s!"bad child offset {child} in node at {node}"
  | .oversizedSet count results => s!"{count} IDs in a set of a {results} result index"
  | .idOutOfRange id => s!"result ID {id} out of range"
  | .truncatedResultOffsets => "truncated result offsets"
  | .badRecordBounds id => s!"bad bounds for result {id}"
  | .unknownTag tag => s!"unknown kind tag {tag}"
  | .inconsistentAlias id => s!"result {id} has an inconsistent alias"
  | .aliasCycle id => s!"alias cycle at result {id}"
  | .kindNotInTypeMap kind => s!"kind {kind.title} missing from type map"
  | .tooManyNodes => "trie has more nodes than bytes"

/-- Why bytes are not taken for search data. -/
inductive DecodeError where
  /-- The signature is missing. -/
  | invalidSignature
  /-- The format has another version. -/
  | unsupportedVersion (found supported : Nat)
  | corrupt (fault : Corruption)
deriving DecidableEq, Repr

def DecodeError.message : DecodeError → String
  | .invalidSignature => "invalid search data signature"
  | .unsupportedVersion found supported =>
      s!"unsupported search data version {found}, expected {supported}"
  | .corrupt fault => "corrupt search data: " ++ fault.message

end PrefixSearch
