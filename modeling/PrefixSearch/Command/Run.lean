import PrefixSearch.Build
import PrefixSearch.Command.Request
import PrefixSearch.Json.Printer
import PrefixSearch.Report.Dump
import PrefixSearch.Report.Listing
import PrefixSearch.Report.Summary

/-!
# Running a command

A command reads and writes files in some place and gives what it prints. What was printed before a
failure is given as well.
-/

namespace PrefixSearch

/-- The result as JSON. -/
def SearchResult.toJson (result : SearchResult) : Json.Value :=
  .ofFields [
    ("id", .ofNat result.id),
    ("name", .ofText result.name),
    ("url", .ofText result.url),
    ("kind", .ofText result.kind.name),
    ("css_class", .ofText result.cssClass.name),
    ("label", .ofText result.label),
    ("deprecated", .bool result.deprecated),
    ("deleted", .bool result.deleted),
    ("suffix_length", .ofNat result.suffixLength.toNat),
    ("alias_of", match result.target with
      | some target => .ofNat target
      | none => .null)]

/-- What a command printed, and why it failed if it did. -/
structure Outcome where
  stdout : String := ""
  failure : Option Failure := none
deriving DecidableEq, Repr, Inhabited

namespace Outcome

/-- The outcome of a text that may not come about. -/
def ofResult : Except Failure String → Outcome
  | .ok stdout => { stdout }
  | .error failure => { failure := some failure }

/-- The exit status: 1 if the command failed. -/
def status (outcome : Outcome) : UInt32 :=
  if outcome.failure.isSome then 1 else 0

end Outcome

/-- The exit status of a command line that asks for nothing. -/
def usageStatus : UInt32 := 2

variable {m : Type → Type} [Monad m] [FileStore m]

/-- The bytes of search data, which may be in a binary file or in a script. -/
def openData (path : String) : ExceptT Failure m (List UInt8) := do
  let isScript := Path.extension? path = some "js"
  match ← orFail (.openFailed path) (← FileStore.openPath (m := m) path) with
  | .folder => throw (.file (if isScript then .isAFolder else .notMappable))
  | .file bytes =>
      if isScript then
        match Text.ofUtf8? bytes with
        | none => throw (.file .notText)
        | some script =>
            match Script.decode? script with
            | some data => return data
            | none => throw (.noData path)
      else
        return bytes

/-- Open search data. -/
def openSearchData (path : String) : ExceptT Failure m SearchData := do
  let bytes ← openData path
  orFail (.unreadable path) (SearchData.parse bytes.toArray)

/-- What a query prints for one prefix. -/
def answer (d : SearchData) (limit : Nat) (json coloured heading : Bool) (text : String) :
    Except Failure String := do
  let results ← (d.query text).mapError .corrupt
  let shown := results.take limit
  if json then
    return (Json.Value.array (shown.map SearchResult.toJson)).render ++ "\n"
  else
    return (if heading then text ++ ":\n" else "") ++
      Report.render coloured (Report.listing text d.symbolPrefix shown)

/-- What a query prints for its prefixes, up to the first that fails. -/
def answers (d : SearchData) (limit : Nat) (json coloured heading : Bool) (texts : List String) :
    Outcome :=
  texts.foldl
    (fun outcome text =>
      if outcome.failure.isSome then outcome
      else
        match answer d limit json coloured heading text with
        | .ok printed => { stdout := outcome.stdout ++ printed }
        | .error failure => { outcome with failure := some failure })
    {}

/-- What a build prints. -/
def BuildSummary.text (summary : BuildSummary) : String :=
  s!"Indexed {summary.entries} entries ({summary.skipped} skipped), {summary.bytes} bytes\n" ++
    s!"  {summary.binaryPath}\n  {summary.scriptPath}\n"

/-- Run what a command line asks for. -/
def Request.run : Request → m Outcome
  | .build entries output config inParts => do
      let built ← ExceptT.run (m := m) (do
        let config ← match config with
          | some path => readConfig path
          | none => pure {}
        let summary ← buildFromFile entries output config inParts
        return summary.text)
      return .ofResult built
  | .query data prefixes limit json coloured => do
      match ← ExceptT.run (m := m) (openSearchData data) with
      | .error failure => return { failure := some failure }
      | .ok d => return answers d limit json coloured (1 < prefixes.length) prefixes
  | .stats data => do
      let shown ← ExceptT.run (m := m) (do
        orFail .corrupt (Report.summary (← openSearchData data)))
      return .ofResult shown
  | .dump data => do
      let shown ← ExceptT.run (m := m) (do
        orFail .corrupt (Report.dump (← openSearchData data)))
      return .ofResult shown

end PrefixSearch
