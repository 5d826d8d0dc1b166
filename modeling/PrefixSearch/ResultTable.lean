import PrefixSearch.Entry
import Std.Data.TreeMap

/-!
# The result table

The table holds the entries in the order they were added; an alias may only lead to an entry that
is already there. Two entries with the same normalized name and URL are one result: the later one
is merged into the earlier one, which turns it into an alias, and everything that led to it is
redirected. So chains of aliases get no longer by a merge and never run into a circle.

Operations on an ID that is in no row exist in two forms. The plain form is total and treats such
an ID as the default entry; the form with a question mark gives nothing for it.
-/

namespace PrefixSearch

/-- An operation whose precondition does not hold. -/
inductive Misuse where
  /-- An entry has a target but not the kind for it, or the kind but no target. -/
  | aliasMismatch
  | missingTarget (target : Id)
  | unknownResult (id : Id)
  | selfMerge
  | mergeIntoAlias (id : Id)
  | notInTable (id : Id)
deriving DecidableEq, Repr

def Misuse.message : Misuse → String
  | .aliasMismatch => "alias entries and only alias entries carry an alias target"
  | .missingTarget target => s!"alias target {target} is not in the result table"
  | .unknownResult id => s!"unknown result {id}"
  | .selfMerge => "cannot merge a result into itself"
  | .mergeIntoAlias id => s!"cannot merge into alias {id}"
  | .notInTable id => s!"result {id} is not in the result table"

/-- An entry of the table and, if it was a duplicate, the entry it was merged into. -/
structure Row where
  entry : Entry
  mergedInto : Option Id := none
deriving DecidableEq, Repr, Inhabited

namespace Row

/-- The row as a duplicate of the entry `kept`. -/
def mergeInto (kept : Id) (row : Row) : Row :=
  { entry := { row.entry with kind := .redirect, target := some kept, url := "" }
    mergedInto := some kept }

/-- Lead to `kept` what led to `gone`. -/
def redirect (gone kept : Id) (row : Row) : Row :=
  { entry := if row.entry.target = some gone then { row.entry with target := some kept }
      else row.entry
    mergedInto := if row.mergedInto = some gone then some kept else row.mergedInto }

end Row

/-- What makes two entries the same result: the normalized name and the URL. -/
abbrev ResultKey := String × String

def ResultKey.compare (a b : ResultKey) : Ordering :=
  (Ord.compare a.1 b.1).then (Ord.compare a.2 b.2)

structure ResultTable where
  rows : Array Row := #[]
  /-- The result of each registered key. -/
  canonical : Std.TreeMap ResultKey Id ResultKey.compare := ∅

namespace ResultTable

def size (t : ResultTable) : Nat :=
  t.rows.size

def isEmpty (t : ResultTable) : Bool :=
  t.rows.isEmpty

def get? (t : ResultTable) (id : Id) : Option Entry :=
  t.rows[id]?.map Row.entry

/-- The entry with the ID, the default entry if there is none. -/
def get (t : ResultTable) (id : Id) : Entry :=
  (t.get? id).getD default

/-- The entries in the order of their IDs. -/
def entries (t : ResultTable) : List Entry :=
  t.rows.toList.map Row.entry

/-- Append an entry, which gets the next ID. -/
def push (t : ResultTable) (entry : Entry) : Except Misuse (Id × ResultTable) :=
  if (entry.kind = .redirect) ≠ (entry.target.isSome = true) then
    .error .aliasMismatch
  else
    match entry.target.filter (t.size ≤ ·) with
    | some target => .error (.missingTarget target)
    | none => .ok (t.size, { t with rows := t.rows.push { entry } })

/-- The result with the normalized name and the URL. -/
def find? (t : ResultTable) (name url : String) : Option Id :=
  t.canonical[(name, url)]?

/-- Make the entry the result of its normalized name and URL, unless there already is one. -/
def register (t : ResultTable) (name : String) (id : Id) : ResultTable :=
  { t with canonical := t.canonical.insertIfNew (name, (t.get id).url) id }

def register? (t : ResultTable) (name : String) (id : Id) : Option ResultTable :=
  if id < t.size then some (t.register name id) else none

/-- Merge the entry `gone` into the entry `kept`. -/
def merge (t : ResultTable) (kept gone : Id) : ResultTable :=
  { rows := (t.rows.modify gone (Row.mergeInto kept)).map (Row.redirect gone kept)
    canonical := t.canonical.map fun _ id => if id = gone then kept else id }

/-- Merge the entry `gone` into the entry `kept`, which must be another one and no alias. -/
def mergeInto (t : ResultTable) (kept gone : Id) : Except Misuse ResultTable :=
  if t.size ≤ kept then .error (.unknownResult kept)
  else if t.size ≤ gone then .error (.unknownResult gone)
  else if kept = gone then .error .selfMerge
  else if (t.get kept).kind = .redirect then .error (.mergeIntoAlias kept)
  else .ok (t.merge kept gone)

/-- The entry a merged duplicate was merged into, and any other ID itself. -/
def canonicalId (t : ResultTable) (id : Id) : Id :=
  (t.rows[id]?.bind Row.mergedInto).getD id

def isMerged (t : ResultTable) (id : Id) : Bool :=
  (t.rows[id]?.bind Row.mergedInto).isSome

/-- The next entry of the chain of aliases that begins at the ID. -/
def next? (t : ResultTable) (id : Id) : Option Id :=
  let entry := t.get id
  if entry.kind = .redirect then entry.target else none

/-- Follow at most `steps` aliases. -/
def follow (t : ResultTable) : (steps : Nat) → Id → Id
  | 0, id => id
  | steps + 1, id =>
      match t.next? id with
      | some target => t.follow steps target
      | none => id

/-- The entry that the chain of aliases beginning at the ID ends at. -/
def resolve (t : ResultTable) (id : Id) : Id :=
  t.follow (t.size + 1) id

def resolve? (t : ResultTable) (id : Id) : Option Id :=
  if id < t.size then some (t.resolve id) else none

/-- The kind of the entry an ID resolves to. -/
def resolvedKind (t : ResultTable) (id : Id) : Kind :=
  (t.get (t.resolve id)).kind

def resolvedKind? (t : ResultTable) (id : Id) : Option Kind :=
  if id < t.size then some (t.resolvedKind id) else none

/-- Whether two results would look the same: they have the same name and, once aliases are
followed, the same URL. -/
def sameTarget (t : ResultTable) (a b : Id) : Bool :=
  (t.get a).name == (t.get b).name &&
    (t.resolve a == t.resolve b || (t.get (t.resolve a)).url == (t.get (t.resolve b)).url)

def sameTarget? (t : ResultTable) (a b : Id) : Option Bool :=
  if a < t.size ∧ b < t.size then some (t.sameTarget a b) else none

/-- The rows of the type map: one for every kind that an entry resolves to, ordered by tag. -/
def typeMap (t : ResultTable) : List TypeRow :=
  let used := (List.range t.size).map t.resolvedKind
  (Kind.all.filter fun kind => kind ≠ .redirect && used.contains kind).map Kind.typeRow

end ResultTable

end PrefixSearch
