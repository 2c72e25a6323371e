import YamlEdit.Json.Basic

/-!
# JSON over several lines

Items and members have lines of their own, two columns further in than their brackets. An empty
list or object stays on its line.
-/

namespace YamlEdit

namespace Json

/-- The start of a line at a column. -/
def lineAt (column : Nat) : Text := '\n' :: Text.spaces column

mutual

/-- The written form of a value that starts on a line indented by `column`. -/
def pretty (column : Nat) : Json → Text
  | array items =>
    if items.isEmpty then "[]".toList
    else '[' :: prettyItems (column + 2) true items ++ lineAt column ++ [']']
  | object members =>
    if members.isEmpty then "\x7b\x7d".toList
    else '\x7b' :: prettyMembers (column + 2) true members ++ lineAt column ++ ['\x7d']
  | other => other.render

/-- The items of an array, each on a line of its own. -/
def prettyItems (column : Nat) (first : Bool) : List Json → Text
  | [] => []
  | item :: rest =>
    (if first then [] else [',']) ++ lineAt column ++ pretty column item ++
      prettyItems column false rest

/-- The members of an object, each on a line of its own. -/
def prettyMembers (column : Nat) (first : Bool) : List (Text × Json) → Text
  | [] => []
  | (name, value) :: rest =>
    (if first then [] else [',']) ++ lineAt column ++ renderString name ++ ": ".toList ++
      pretty column value ++ prettyMembers column false rest

end

end Json

end YamlEdit
