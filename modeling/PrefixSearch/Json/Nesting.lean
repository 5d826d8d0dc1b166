import PrefixSearch.Json.Token

/-!
# Values of a JSON text

The tokens are read with a stack of the arrays and objects that are open, so that depth of nesting
costs nothing but the stack.
-/

namespace PrefixSearch.Json

/-- An open array or object, with what it has so far (read backwards). An object also has the key
that was read last. -/
inductive Frame where
  | array (items : List Value)
  | object (fields : List (Text? × Value)) (key : Text?)

/-- What the next token has to be. -/
inductive Want where
  | value
  /-- A value or the end of the array that has just been opened. -/
  | firstItem
  /-- A key or the end of the object that has just been opened. -/
  | firstKey
  | key
  | colon
  /-- A comma or the end of the innermost array or object. -/
  | more
  /-- Nothing, the value being complete. -/
  | nothing (value : Value)

/-- Put a complete value where it belongs. -/
def settle (value : Value) : List Frame → List Frame × Want
  | [] => ([], .nothing value)
  | .array items :: rest => (.array (value :: items) :: rest, .more)
  | .object fields key :: rest => (.object ((key, value) :: fields) key :: rest, .more)

/-- Read a token. -/
def nest? (token : Token) (stack : List Frame) (want : Want) : Option (List Frame × Want) :=
  match want, token, stack with
  | .value, .scalar value, _ => some (settle value stack)
  | .firstItem, .scalar value, _ => some (settle value stack)
  | .value, .openArray, _ => some (.array [] :: stack, .firstItem)
  | .firstItem, .openArray, _ => some (.array [] :: stack, .firstItem)
  | .value, .openObject, _ => some (.object [] none :: stack, .firstKey)
  | .firstItem, .openObject, _ => some (.object [] none :: stack, .firstKey)
  | .firstItem, .closeArray, .array items :: rest => some (settle (.array items.reverse) rest)
  | .more, .closeArray, .array items :: rest => some (settle (.array items.reverse) rest)
  | .more, .comma, .array _ :: _ => some (stack, .value)
  | .firstKey, .closeObject, .object fields _ :: rest =>
      some (settle (.object fields.reverse) rest)
  | .more, .closeObject, .object fields _ :: rest => some (settle (.object fields.reverse) rest)
  | .more, .comma, .object _ _ :: _ => some (stack, .key)
  | .firstKey, .scalar (.string key), .object fields _ :: rest =>
      some (.object fields key :: rest, .colon)
  | .key, .scalar (.string key), .object fields _ :: rest =>
      some (.object fields key :: rest, .colon)
  | .colon, .colon, _ => some (stack, .value)
  | _, _, _ => none

/-- Read the rest of the tokens. -/
def valueFrom? (stack : List Frame) (want : Want) : List Token → Option Value
  | [] =>
      match want with
      | .nothing value => some value
      | _ => none
  | token :: rest =>
      match nest? token stack want with
      | some (stack, want) => valueFrom? stack want rest
      | none => none

/-- The value of a text, if it is the text of one. -/
def parse? (bytes : List UInt8) : Option Value :=
  (tokens? bytes).bind (valueFrom? [] .value)

end PrefixSearch.Json
