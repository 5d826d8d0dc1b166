import PrefixSearch.Json.Value
import PrefixSearch.Text.Quoted

/-!
# JSON text

The compact text of a value. Characters beyond ASCII stand for themselves.
-/

namespace PrefixSearch.Json

/-- A control character as an escape by code. -/
def codeEscape (c : Char) : String :=
  let digits := Text.hexDigits c.toNat
  "\\u" ++ String.ofList (List.leftpad 4 '0' digits.toList)

/-- A character inside a string. -/
def escaped (c : Char) : String :=
  if c = '\x22' then "\\\""
  else if c = '\\' then "\\\\"
  else if c = '\n' then "\\n"
  else if c = '\t' then "\\t"
  else if c = '\r' then "\\r"
  else if c = '\x08' then "\\b"
  else if c = '\x0c' then "\\f"
  else if c.toNat < 0x20 then codeEscape c
  else String.singleton c

def quoted (s : String) : String :=
  "\"" ++ String.join (s.toList.map escaped) ++ "\""

def numberText : Number → String
  | .natural n => toString n
  | .negative n => "-" ++ toString n
  | .fractional word => word

mutual

/-- The compact text of a value. -/
def Value.render : Value → String
  | .null => "null"
  | .bool b => toString b
  | .number n => numberText n
  | .string text => quoted (text.getD "")
  | .array items => "[" ++ String.intercalate "," (renderItems items) ++ "]"
  | .object fields => "\x7b" ++ String.intercalate "," (renderFields fields) ++ "\x7d"

def renderItems : List Value → List String
  | [] => []
  | item :: rest => item.render :: renderItems rest

def renderFields : List (Text? × Value) → List String
  | [] => []
  | (key, value) :: rest => (quoted (key.getD "") ++ ":" ++ value.render) :: renderFields rest

end

end PrefixSearch.Json
