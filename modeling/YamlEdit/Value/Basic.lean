import YamlEdit.Text.Quoted
import YamlEdit.Json.Basic

/-!
# Values

What a document says, without how it is written. A mapping keeps the order of its entries; its
keys are any values, no two of them the same.
-/

namespace YamlEdit

/-- A value of a document. Mappings keep the order of their entries. -/
inductive Value where
  | null
  | bool (b : Bool)
  | integer (n : Int)
  | float (x : Float)
  | string (text : Text)
  | sequence (items : List Value)
  | mapping (entries : List (Value × Value))
  /-- A value under a local tag, which is given without its `!`. -/
  | tagged (tag : Text) (value : Value)
  deriving Inhabited

namespace Value

/-- A sequence or mapping that is not empty, perhaps under a tag. -/
def isContainer : Value → Bool
  | sequence items => !items.isEmpty
  | mapping entries => !entries.isEmpty
  | tagged _ v => v.isContainer
  | _ => false

/-- The same double; all NaNs are one. -/
def sameFloat (x y : Float) : Bool := (x.isNaN && y.isNaN) || x == y

mutual

/-- Whether two values are the same as keys. The order of a mapping does not count. -/
def same : Value → Value → Bool
  | null, null => true
  | bool a, bool b => a == b
  | integer m, integer n => m == n
  | float x, float y => sameFloat x y
  | string s, string t => s == t
  | sequence vs, sequence ws => sameItems vs ws
  | mapping es, mapping fs => es.length == fs.length && holdsAll fs es
  | tagged t v, tagged u w => t == u && same v w
  | _, _ => false

/-- Sequences are the same if their items are, one by one. -/
def sameItems : List Value → List Value → Bool
  | [], [] => true
  | v :: vs, w :: ws => same v w && sameItems vs ws
  | _, _ => false

/-- Whether every entry of a list has the same one in `fs`. -/
def holdsAll (fs : List (Value × Value)) : List (Value × Value) → Bool
  | [] => true
  | (k, v) :: rest => (fs.any fun f => same k f.1 && same v f.2) && holdsAll fs rest

end

/-- Whether one of the entries has the given key. -/
def hasKey (entries : List (Value × Value)) (key : Value) : Bool :=
  entries.any fun e => same key e.1

/-! ## Values and JSON -/

/-- A key that occurs twice in a mapping. -/
structure DuplicateKey where
  key : Value

/-- The written form of a double. -/
def floatFormat : Decimal.Format where
  plusInExponent := false

/-- The fewest digits that read back, or the word for what is no number. -/
def renderFloat (x : Float) : Text :=
  match Decimal.renderBits? floatFormat x.toBits with
  | some t => t
  | none => if x.isNaN then ".nan".toList else if x < 0 then "-.inf".toList else ".inf".toList

/-- The key that stands twice, in words. -/
def DuplicateKey.message (d : DuplicateKey) : Text :=
  "duplicate entry ".toList ++
    match d.key with
    | null => "with null key".toList
    | bool b => "with key `".toList ++ (if b then "true".toList else "false".toList) ++ ['`']
    | integer n => "with key ".toList ++ Text.ofInt n
    | float x => "with key ".toList ++ renderFloat x
    | string t => "with key ".toList ++ Text.quoted t
    | _ => "in YAML map".toList

mutual

/-- The value that a JSON text stands for. -/
def ofJson : Json → Except DuplicateKey Value
  | .null => .ok null
  | .bool b => .ok (bool b)
  | .integer n => .ok (integer n)
  | .float x => .ok (float x)
  | .string t => .ok (string t)
  | .array items => sequence <$> ofItems items
  | .object members => mapping <$> ofMembers [] members

/-- The items of an array. -/
def ofItems : List Json → Except DuplicateKey (List Value)
  | [] => .ok []
  | item :: rest => do return (← ofJson item) :: (← ofItems rest)

/-- Members are read in order; `seen` are the names in front of them. -/
def ofMembers (seen : List Text) : List (Text × Json) → Except DuplicateKey (List (Value × Value))
  | [] => .ok []
  | (name, item) :: rest =>
    if seen.contains name then .error ⟨string name⟩
    else do
      let v ← ofJson item
      return (string name, v) :: (← ofMembers (name :: seen) rest)

end

end Value

end YamlEdit
