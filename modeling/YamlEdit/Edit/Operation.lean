import YamlEdit.Value.Basic

/-!
# Edit operations
-/

namespace YamlEdit

/-- One edit of a document; `path` leads to what is edited. -/
inductive Operation where
  /-- Takes out an entry: a key with its value, or an item. -/
  | delete (path : Text)
  /-- Replaces a value. -/
  | update (path : Text) (value : Value)
  /-- Renames the key of a value. -/
  | rename (path : Text) (newName : Text)
  /-- Adds a pair at the end of a mapping. -/
  | mapAdd (path : Text) (key : Text) (value : Value)
  /-- Adds an item to a sequence: in front of number `index`, or at the end. -/
  | seqAdd (path : Text) (value : Value) (index : Option Nat)
  deriving Inhabited

namespace Operation

/-- The name that scripts and messages use. -/
def name : Operation → Text
  | delete .. => "delete".toList
  | update .. => "update".toList
  | rename .. => "rename".toList
  | mapAdd .. => "map_add".toList
  | seqAdd .. => "seq_add".toList

/-- The path that an operation works on. -/
def path : Operation → Text
  | delete path | update path _ | rename path _ | mapAdd path _ _ | seqAdd path _ _ => path

/-- The operation in a line: its name and its path. -/
def display (o : Operation) : Text := o.name ++ " `".toList ++ o.path ++ ['`']

end Operation

end YamlEdit
