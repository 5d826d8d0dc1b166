import PrefixSearch.Width

/-!
# Configuration

What can be chosen for an index. A configuration file need not say everything; the defaults are
those of the structure.
-/

namespace PrefixSearch

/-- The version of the file format, which is also part of the file names. -/
def formatVersion : UInt8 := 2

structure Config where
  /-- What the search page puts in front of the URL of a result. -/
  symbolPrefix : String := ""
  /-- Whether texts and queries are compared in lowercase. -/
  caseInsensitive : Bool := true
  /-- The number of completions that are kept for a text. -/
  maxCompletions : Nat := 100
  /-- Whether `a::b::c` is also found as `b::c` and as `c`. -/
  indexScopeSuffixes : Bool := true
  scopeSeparator : String := "::"
  minNameWidth : NameWidth := .bits8
  minIdWidth : IdWidth := .bits16
  minOffsetWidth : OffsetWidth := .bits24
  /-- What the names of the written files begin with. -/
  filenamePrefix : String := "search"
  /-- The number of texts per part when an index is built in parts. -/
  parallelChunkSize : Nat := 4096
deriving DecidableEq, Repr, Inhabited

namespace Config

def binaryName (config : Config) : String :=
  s!"{config.filenamePrefix}-v{formatVersion}.bin"

def scriptName (config : Config) : String :=
  s!"{config.filenamePrefix}-v{formatVersion}.js"

end Config

end PrefixSearch
