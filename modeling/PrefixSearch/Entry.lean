import PrefixSearch.Kind

/-!
# Entries

An entry is one thing that can be found: a documented item with a URL, or an alias that leads to
an earlier entry. The ID of an entry is its position in the result table.
-/

namespace PrefixSearch

/-- The position of an entry in the result table. -/
abbrev Id := Nat

/-- The flags of an entry as they are stored: bit 0 deprecated, bit 1 deleted. -/
structure Flags where
  bits : UInt8
deriving DecidableEq, Repr, Inhabited

namespace Flags

def none : Flags := ⟨0⟩

def isDeprecated (flags : Flags) : Bool :=
  flags.bits &&& 1 != 0

def isDeleted (flags : Flags) : Bool :=
  flags.bits &&& 2 != 0

def setDeprecated (flags : Flags) : Flags :=
  ⟨flags.bits ||| 1⟩

def setDeleted (flags : Flags) : Flags :=
  ⟨flags.bits ||| 2⟩

/-- The first ranking criterion: usable entries, then deleted ones, then deprecated ones. -/
def status (flags : Flags) : Nat :=
  if flags.isDeprecated then 2 else if flags.isDeleted then 1 else 0

end Flags

/-- One thing that can be found. The kind is `redirect` exactly for an entry with a target; the
result table takes no other entry. -/
structure Entry where
  name : String
  url : String := ""
  kind : Kind
  /-- The entry an alias leads to. -/
  target : Option Id := .none
  flags : Flags := .none
  /-- The number of bytes at the end of the name that a user does not type. -/
  suffixLength : UInt8 := 0
  /-- More texts that reach the entry, as completions only. -/
  keywords : List String := []
deriving DecidableEq, Repr, Inhabited

namespace Entry

/-- An alias named `name` of the entry `target`. -/
def aliasTo (name : String) (target : Id) : Entry :=
  { name, kind := .redirect, target }

def isAlias (entry : Entry) : Bool :=
  entry.target.isSome

/-- The length of the name in bytes. -/
def nameLength (entry : Entry) : Nat :=
  entry.name.utf8ByteSize

end Entry

/-- What a text finds: the results whose indexed text it is, and those whose indexed text it
begins, best ranked first. -/
structure Hits where
  exact : List Id := []
  completions : List Id := []
deriving DecidableEq, Repr, Inhabited

namespace Hits

def isEmpty (hits : Hits) : Bool :=
  hits.exact.isEmpty && hits.completions.isEmpty

/-- Exact results first, then the completions that are not among them. -/
def ordered (hits : Hits) : List Id :=
  hits.completions.foldl (fun ids id => if ids.contains id then ids else ids ++ [id]) hits.exact

end Hits

end PrefixSearch
