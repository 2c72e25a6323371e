import YamlEdit.Decimal.Shortest

/-!
# JSON values

Members of an object keep their order and may repeat. A number is an integer when it is written
without point and exponent and fits 64 bits (signed or unsigned), and a double otherwise.
-/

namespace YamlEdit

/-- A JSON value. Objects keep their members as written, the same name twice too. -/
inductive Json where
  | null
  | bool (value : Bool)
  | integer (n : Int)
  | float (x : Float)
  | string (text : Text)
  | array (items : List Json)
  | object (members : List (Text × Json))
  deriving Inhabited

namespace Json

/-- The first member with the given name. -/
def member? (name : Text) : Json → Option Json
  | object members => members.lookup name
  | _ => none

/-! ## The compact written form -/

/-- One character of a string: quotes, backslashes and control characters are escaped. -/
def escapeChar (c : Char) : Text :=
  if c = '"' then ['\\', '"']
  else if c = '\\' then ['\\', '\\']
  else if c = '\n' then ['\\', 'n']
  else if c = '\r' then ['\\', 'r']
  else if c = '\t' then ['\\', 't']
  else if c = '\x08' then ['\\', 'b']
  else if c = '\x0c' then ['\\', 'f']
  else if c.toNat < 0x20 then
    '\\' :: 'u' :: Text.ofNatHex 4 c.toNat
  else [c]

/-- A string with its quotes. -/
def renderString (t : Text) : Text := '"' :: t.flatMap escapeChar ++ ['"']

/-- Exponents of JSON numbers carry their sign. -/
def numberFormat : Decimal.Format where
  plusInExponent := true

/-- A double; infinities and NaN have no written form and become `null`. -/
def renderFloat (x : Float) : Text :=
  (Decimal.renderBits? numberFormat x.toBits).getD "null".toList

mutual

/-- The written form without any space. -/
def render : Json → Text
  | null => "null".toList
  | bool true => "true".toList
  | bool false => "false".toList
  | integer n => Text.ofInt n
  | float x => renderFloat x
  | string t => renderString t
  | array items => '[' :: renderItems items ++ [']']
  | object members => '\x7b' :: renderMembers members ++ ['\x7d']

/-- The items of an array with commas between them. -/
def renderItems : List Json → Text
  | [] => []
  | [item] => render item
  | item :: rest => render item ++ ',' :: renderItems rest

/-- The members of an object with commas between them. -/
def renderMembers : List (Text × Json) → Text
  | [] => []
  | [(name, value)] => renderString name ++ ':' :: render value
  | (name, value) :: rest => renderString name ++ ':' :: render value ++ ',' :: renderMembers rest

end

end Json

end YamlEdit
