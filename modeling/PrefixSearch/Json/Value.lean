/-!
# JSON values

A value as it was written down: the fields of an object in their order and as often as they occur,
and of a number whether it is an integer. A string whose bytes or escapes do not form Unicode text
is a value too; it is a fault only where its text is asked for.
-/

namespace PrefixSearch.Json

/-- A number by its form. An integer written with a minus sign, zero included, is negative. -/
inductive Number where
  | natural (n : Nat)
  | negative (n : Nat)
  /-- A number with a fraction or an exponent, as it is written. -/
  | fractional (word : String)
deriving DecidableEq, Repr, Inhabited

/-- The text of a string, nothing if it is not Unicode text. -/
abbrev Text? := Option String

inductive Value where
  | null
  | bool (b : Bool)
  | number (n : Number)
  | string (text : Text?)
  | array (items : List Value)
  | object (fields : List (Text? × Value))
deriving Inhabited

namespace Value

/-- The string with this text. -/
def ofText (s : String) : Value :=
  .string (some s)

/-- The integer with this value. -/
def ofNat (n : Nat) : Value :=
  .number (.natural n)

/-- The object with these fields. -/
def ofFields (fields : List (String × Value)) : Value :=
  .object (fields.map fun field => (some field.1, field.2))

def text? : Value → Option String
  | .string text => text
  | _ => none

def bool? : Value → Option Bool
  | .bool b => some b
  | _ => none

/-- A natural number below `limit`. -/
def nat? (limit : Nat) : Value → Option Nat
  | .number (.natural n) => if n < limit then some n else none
  | _ => none

def items? : Value → Option (List Value)
  | .array items => some items
  | _ => none

/-- A value of `read`, or `null` for the absence of one. -/
def orNull? {α : Type} (read : Value → Option α) : Value → Option (Option α)
  | .null => some none
  | value => (read value).map some

/-- A name out of a closed list, which may also be written as the only key of an object, with the
value `null`. -/
def name? : Value → Option String
  | .string text => text
  | .object [(key, .null)] => key
  | _ => none

/-- The place of a field in a list that has at most one place for each name. Asked to be `strict`
it refuses a field for which there is no place. -/
def takeField (names : List String) (strict : Bool) (places : List (Option Value))
    (field : Text? × Value) : Option (List (Option Value)) :=
  match field.1 with
  | none => none
  | some key =>
      match names.idxOf? key with
      | none => if strict then none else some places
      | some place =>
          if (places[place]?.bind id).isSome then none
          else some (places.set place (some field.2))

/-- The values of the named fields of a structure. It is written as an object, where no name occurs
twice, or as an array of the values in the order of the names, where the last ones may be missing. -/
def fields? (names : List String) (strict : Bool) : Value → Option (List (Option Value))
  | .object fields => fields.foldlM (takeField names strict) (names.map fun _ => none)
  | .array items =>
      if items.length ≤ names.length then
        some (items.map some ++ List.replicate (names.length - items.length) none)
      else
        none
  | _ => none

/-- Read a field of a structure at its place, taking the default if it is missing. -/
def readField? {α : Type} (places : List (Option Value)) (place : Nat) (read : Value → Option α)
    (missing : α) : Option α :=
  match places[place]? with
  | some (some value) => read value
  | _ => some missing

end Value

end PrefixSearch.Json
