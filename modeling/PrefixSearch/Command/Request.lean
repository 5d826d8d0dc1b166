import PrefixSearch.Bytes.Uint
import PrefixSearch.Command.Arguments

/-!
# What a command line asks for

There are four commands: `build` makes search data of an entry list, `query` looks prefixes up,
`stats` and `dump` show what is in a file. Every command takes `--verbose`, before or behind its
name.
-/

namespace PrefixSearch

/-- What a command line asks for. -/
inductive Request where
  | build (entries output : String) (config : Option String) (inParts : Bool)
  | query (data : String) (prefixes : List String) (limit : Nat) (json coloured : Bool)
  | stats (data : String)
  | dump (data : String)
deriving DecidableEq, Repr

namespace Request

def verboseSpec : OptionSpec :=
  { name := "verbose", letter := some 'v', kind := .repeatable }

def buildSpecs : List OptionSpec :=
  [verboseSpec,
    { name := "output", letter := some 'o', kind := .valued },
    { name := "config", letter := some 'c', kind := .valued },
    { name := "parallel", letter := some 'p', kind := .switch },
    { name := "quiet", letter := some 'q', kind := .switch }]

def querySpecs : List OptionSpec :=
  [verboseSpec,
    { name := "limit", letter := some 'n', kind := .valued },
    { name := "json", kind := .switch },
    { name := "no-color", kind := .switch }]

/-- A path, which may not be empty. -/
def path? (s : String) : Option String :=
  if s = "" then none else some s

/-- A natural number that fits eight bytes, a plus sign in front of it allowed. -/
def limit? (s : String) : Option Nat :=
  let digits := match s.toList with
    | '+' :: rest => rest
    | all => all
  if digits = [] ∨ ¬ digits.all Char.isDigit then
    none
  else
    let n := digits.foldl (fun n c => 10 * n + (c.toNat - '0'.toNat)) 0
    if n < Bytes.capacity 8 then some n else none

/-- An optional value that has to be readable if it is there. -/
def optional? {α : Type} (read : String → Option α) : Option String → Option (Option α)
  | none => some none
  | some s => (read s).map some

def ofBuild? (given : List String) : Option Request := do
  let arguments ← Arguments.parse? buildSpecs given
  let output ← optional? path? (arguments.value? "output")
  let config ← optional? path? (arguments.value? "config")
  match arguments.others with
  | [entries] =>
      return .build (← path? entries) (output.getD ".") config (arguments.has "parallel")
  | _ => none

def ofQuery? (given : List String) : Option Request := do
  let arguments ← Arguments.parse? querySpecs given
  let limit ← optional? limit? (arguments.value? "limit")
  match arguments.others with
  | data :: first :: more =>
      return .query (← path? data) (first :: more) (limit.getD 20) (arguments.has "json")
        (!arguments.has "no-color")
  | _ => none

/-- A command that takes a file of search data and nothing else. -/
def ofData? (request : String → Request) (given : List String) : Option Request := do
  match (← Arguments.parse? [verboseSpec] given).others with
  | [data] => return request (← path? data)
  | _ => none

/-- The request of a command and its arguments. -/
def ofCommand? (command : String) (given : List String) : Option Request :=
  if command = "build" then ofBuild? given
  else if command = "query" then ofQuery? given
  else if command = "stats" then ofData? .stats given
  else if command = "dump" then ofData? .dump given
  else none

/-- The request of a command line, if it is one. -/
def parse? : List String → Option Request
  | [] => none
  | argument :: rest =>
      if Arguments.looksLikeOption argument then
        match Arguments.parse? [verboseSpec] [argument] with
        | some { others := [], options := _ :: _ } => parse? rest
        | _ => none
      else
        ofCommand? argument rest

end Request

end PrefixSearch
