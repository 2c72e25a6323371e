import YamlEdit.Edit.Operation
import YamlEdit.Json.Read

/-!
# Edit scripts

A script is a JSON list of operations. An operation is an object whose member `op` names it and
whose other members are its fields, in any order; or a list of the name and the fields in their
fixed order. Members that are no fields are ignored.

A fault of a field is placed where the reader stands when it has tried to leave the list around
the operation, because fields are looked at only when the operation is read to its end.
-/

namespace YamlEdit

namespace Script

/-! ## Faults -/

/-- The kinds of JSON values, with what a fault tells about them. -/
inductive Found where
  | null
  | bool (b : Bool)
  | integer (n : Int)
  | float (x : Float)
  | string (text : Text)
  | sequence
  | map

/-- What a value is called where another kind was expected. -/
def Found.ofJson : Json → Found
  | .null => null
  | .bool b => bool b
  | .integer n => integer n
  | .float x => float x
  | .string t => string t
  | .array _ => sequence
  | .object _ => map

/-- What was found, in words. -/
def Found.describe : Found → Text
  | null => "null".toList
  | bool b => "boolean `".toList ++ (if b then "true".toList else "false".toList) ++ ['`']
  | integer n => "integer `".toList ++ Text.ofInt n ++ ['`']
  | float x => "floating point `".toList ++ Json.renderFloat x ++ ['`']
  | string t => "string ".toList ++ Text.quoted t
  | sequence => "sequence".toList
  | map => "map".toList

/-- What a place in a script has to hold. -/
inductive Expected where
  | list
  | operation
  | operationName
  | string
  | index
  deriving DecidableEq, Repr

/-- What was expected, in words. -/
def Expected.describe : Expected → Text
  | list => "a sequence".toList
  | operation => "internally tagged enum EditOperation".toList
  | operationName => "variant identifier".toList
  | string => "a string".toList
  | index => "usize".toList

/-- The fields of operations. -/
inductive Field where
  | path
  | value
  | newName
  | key
  | index
  deriving DecidableEq, Repr

/-- The member that holds the field. -/
def Field.name : Field → Text
  | path => "path".toList
  | value => "value".toList
  | newName => "to".toList
  | key => "key".toList
  | index => "index".toList

/-- The names of operations. -/
inductive Verb where
  | delete
  | update
  | rename
  | mapAdd
  | seqAdd
  deriving DecidableEq, Repr

namespace Verb

/-- All verbs, in the order in which messages list them. -/
def all : List Verb := [delete, update, rename, mapAdd, seqAdd]

/-- The text that stands for the verb. -/
def name : Verb → Text
  | delete => "delete".toList
  | update => "update".toList
  | rename => "rename".toList
  | mapAdd => "map_add".toList
  | seqAdd => "seq_add".toList

/-- The name of the operation in messages. -/
def title : Verb → Text
  | delete => "Delete".toList
  | update => "Update".toList
  | rename => "Rename".toList
  | mapAdd => "MapAdd".toList
  | seqAdd => "SeqAdd".toList

/-- The fields of the operation in their fixed order. -/
def fields : Verb → List Field
  | delete => [.path]
  | update => [.path, .value]
  | rename => [.path, .newName]
  | mapAdd => [.path, .key, .value]
  | seqAdd => [.path, .value, .index]

/-- The verb that a text stands for. -/
def ofName? (t : Text) : Option Verb := all.find? fun v => v.name == t

end Verb

/-- A count with its noun. -/
def elements (n : Nat) : Text :=
  Text.ofNat n ++ if n = 1 then " element".toList else " elements".toList

/-- Why a text is no script. -/
inductive Fault where
  | json (fault : Json.Fault)
  | invalidType (found : Found) (expected : Expected)
  | negativeIndex (n : Int)
  | unknownOperation (name : Text)
  | missing (name : Text)
  | duplicate (name : Text)
  | duplicateKey (d : Value.DuplicateKey)
  | tooFewFields (count : Nat) (verb : Verb)
  | tooManyFields (count expected : Nat)

/-- A fault in words. -/
def Fault.message : Fault → Text
  | json fault => fault.message
  | invalidType found expected =>
    "invalid type: ".toList ++ found.describe ++ ", expected ".toList ++ expected.describe
  | negativeIndex n =>
    "invalid value: integer `".toList ++ Text.ofInt n ++ "`, expected usize".toList
  | unknownOperation name =>
    "unknown variant `".toList ++ name ++ "`, expected one of ".toList ++
      (", ".toList).intercalate (Verb.all.map fun v => '`' :: v.name ++ ['`'])
  | missing name => "missing field `".toList ++ name ++ ['`']
  | duplicate name => "duplicate field `".toList ++ name ++ ['`']
  | duplicateKey d => d.message
  | tooFewFields count verb =>
    "invalid length ".toList ++ Text.ofNat count ++
      ", expected struct variant EditOperation::".toList ++ verb.title ++ " with ".toList ++
      elements verb.fields.length
  | tooManyFields count expected =>
    "invalid length ".toList ++ Text.ofNat count ++ ", expected ".toList ++ elements expected ++
      " in sequence".toList

/-- A fault and the place where it shows. -/
structure ScriptError where
  fault : Fault
  place : Json.Place

/-- The fault and its place, in words. -/
def ScriptError.message (e : ScriptError) : Text :=
  e.fault.message ++ " at line ".toList ++ Text.ofNat e.place.line ++ " column ".toList ++
    Text.ofNat e.place.column

/-! ## Fields -/

/-- The fields that were found. -/
structure Fields where
  path : Option Text
  value : Option Value
  newName : Option Text
  key : Option Text
  /-- The inner option is that of the field itself. -/
  index : Option (Option Nat)

/-- No member has been read. -/
def Fields.empty : Fields := ⟨none, none, none, none, none⟩

/-- Whether a member has been read. -/
def Fields.has (f : Fields) : Field → Bool
  | .path => f.path.isSome
  | .value => f.value.isSome
  | .newName => f.newName.isSome
  | .key => f.key.isSome
  | .index => f.index.isSome

/-- A text member. -/
def readText : Json → Except Fault Text
  | .string t => .ok t
  | other => .error (.invalidType (.ofJson other) .string)

/-- An index, which may be absent. -/
def readIndex : Json → Except Fault (Option Nat)
  | .null => .ok none
  | .integer n => if 0 ≤ n then .ok (some n.toNat) else .error (.negativeIndex n)
  | other => .error (.invalidType (.ofJson other) .index)

/-- Reads one field. -/
def Fields.set (f : Fields) (field : Field) (item : Json) : Except Fault Fields :=
  match field with
  | .path => do return { f with path := some (← readText item) }
  | .value => do
    return { f with value := some (← (Value.ofJson item).mapError .duplicateKey) }
  | .newName => do return { f with newName := some (← readText item) }
  | .key => do return { f with key := some (← readText item) }
  | .index => do return { f with index := some (← readIndex item) }

/-- Reads the members that are fields of an operation. -/
def Fields.ofMembers (verb : Verb) (f : Fields) : List (Text × Json) → Except Fault Fields
  | [] => .ok f
  | (name, item) :: rest =>
    match verb.fields.find? fun field => field.name == name with
    | none => f.ofMembers verb rest
    | some field =>
      if f.has field then .error (.duplicate name)
      else do (← f.set field item).ofMembers verb rest

/-- Reads the items as fields in the given order; `index` may be left out. -/
def Fields.ofItems (verb : Verb) (f : Fields) (count : Nat) :
    List Field → List Json → Except Fault Fields
  | [], [] => .ok f
  | [], items => .error (.tooManyFields (count + items.length) count)
  | .index :: _, [] => .ok f
  | _ :: _, [] => .error (.tooFewFields count verb)
  | field :: fields, item :: items => do
    (← f.set field item).ofItems verb (count + 1) fields items

/-- A member that has to be there. -/
def require {α : Type} (field : Field) (x? : Option α) : Except Fault α :=
  match x? with
  | some x => .ok x
  | none => .error (.missing field.name)

/-- The operation with the given fields. -/
def operation (verb : Verb) (f : Fields) : Except Fault Operation := do
  let path ← require .path f.path
  match verb with
  | .delete => return .delete path
  | .update => return .update path (← require .value f.value)
  | .rename => return .rename path (← require .newName f.newName)
  | .mapAdd => do
    let key ← require .key f.key
    return .mapAdd path key (← require .value f.value)
  | .seqAdd => return .seqAdd path (← require .value f.value) (f.index.getD none)

/-! ## Reading -/

/-- A step of reading a script. -/
abbrev Reader := StateT Json.Cursor (Except ScriptError)

namespace Reader

/-- A fault at the place that has been reached. -/
def fail {α : Type} (fault : Fault) : Reader α := fun c => .error ⟨fault, c.place⟩

instance : MonadLift Json.Reader Reader :=
  ⟨fun x c => (x.run c).mapError fun e => ⟨.json e.fault, e.place⟩⟩

/-- Steps over blanks and one of the characters. -/
def tryToSkip (cs : Text) : Reader (Option Char) := do
  let c? ← Json.peekToken?
  if c?.any cs.contains then Json.Reader.skip
  return c?

/-- Fails where the reader stands after it has tried to leave an object. -/
def failAfterObject {α : Type} (fault : Fault) : Reader α := do
  let _ ← tryToSkip ['\x7d']
  fail fault

/-- Fails where the reader stands after it has tried to leave a list. -/
def failAfterList {α : Type} (fault : Fault) : Reader α := do
  if (← tryToSkip [']', ',']) = some ',' then
    let _ ← Json.peekToken?
  fail fault

/-- Complains about a value that is not what is expected here. Of a list or an object only the
start is looked at. -/
def failType {α : Type} (expected : Expected) (c : Char) : Reader α := do
  if c = '[' then fail (.invalidType .sequence expected)
  else if c = '\x7b' then fail (.invalidType .map expected)
  else
    let found ← Json.readScalar c
    fail (.invalidType (.ofJson found) expected)

/-- The character that the next value starts with. -/
def valueStart : Reader Char := do
  match ← Json.peekToken? with
  | some c => return c
  | none => liftM (Json.Reader.failAhead (α := Char) .endInValue)

/-- Reads the name of an operation. -/
def verb : Reader Verb := do
  let c ← valueStart
  if c ≠ '"' then failType .operationName c
  let name ← Json.readString
  match Verb.ofName? name with
  | some v => return v
  | none => fail (.unknownOperation name)

/-- Reads the members of an operation: its name, and the other ones, last one first. -/
def members (fuel depth : Nat) (first : Bool) (verb? : Option Verb)
    (read : List (Text × Json)) : Reader (Verb × List (Text × Json)) := do
  match fuel with
  | 0 => fail (.json .tooDeep)
  | fuel + 1 =>
    if ← Json.hasMember first then
      let name ← Json.readString
      if name = "op".toList then
        if verb?.isSome then failAfterObject (.duplicate name)
        Json.colon
        members fuel depth false (some (← verb)) read
      else
        Json.colon
        let item ← Json.readValue (Json.fuelFor (← get).rest) depth
        members fuel depth false verb? ((name, item) :: read)
    else match verb? with
      | none => failAfterObject (.missing "op".toList)
      | some v => return (v, read.reverse)

/-- Reads one operation of a script; a fault of its fields is the result. -/
def item (depth : Nat) : Reader (Except Fault Operation) := do
  let c ← valueStart
  if c = '\x7b' then
    Json.Reader.skip
    let (v, read) ← members ((← get).rest.length + 1) (depth - 1) true none []
    Json.endObject
    return do operation v (← Fields.empty.ofMembers v read)
  else if c = '[' then
    Json.Reader.skip
    if !(← Json.hasItem true) then failAfterList (.missing "op".toList)
    let v ← verb
    let items ← Json.readItems (Json.fuelFor (← get).rest) (depth - 1) false []
    Json.endList
    return do operation v (← Fields.empty.ofItems v 0 v.fields items)
  else failType .operation c

/-- Reads the operations of a script that are left onto those in `read`, last one first. -/
def operations (fuel depth : Nat) (first : Bool) (read : List Operation) :
    Reader (List Operation) := do
  match fuel with
  | 0 => fail (.json .tooDeep)
  | fuel + 1 =>
    if ← Json.hasItem first then
      match ← item depth with
      | .ok o => operations fuel depth false (o :: read)
      | .error fault => failAfterList fault
    else return read.reverse

/-- A list of operations with nothing behind it. -/
def script : Reader (List Operation) := do
  let c ← valueStart
  if c ≠ '[' then failType .list c
  Json.Reader.skip
  let found ← operations ((← get).rest.length + 1) (Json.maxDepth - 1) true []
  Json.endList
  match ← Json.peekToken? with
  | none => return found
  | some _ => liftM (Json.Reader.failAhead (α := List Operation) .trailingCharacters)

end Reader

/-- The operations of a script. -/
def read (t : Text) : Except ScriptError (List Operation) :=
  (·.1) <$> Reader.script.run (Json.startOf t)

/-! ## Writing -/

end Script

namespace Value

/-- The text of a key as the name of a member. -/
def memberName? : Value → Option Text
  | string t => some t
  | bool b => some (if b then "true".toList else "false".toList)
  | integer n => some (Text.ofInt n)
  | float x => some (Json.renderFloat x)
  | _ => none

mutual

/-- The value as JSON, a tagged value as an object with one member; `none` if a key has no name. -/
def toJson? : Value → Option Json
  | null => some .null
  | bool b => some (.bool b)
  | integer n => some (.integer n)
  | float x => some (.float x)
  | string t => some (.string t)
  | sequence items => .array <$> toItems? items
  | mapping entries => .object <$> toMembers? entries
  | tagged tag v => do return .object [('!' :: tag, ← toJson? v)]

/-- The items of a sequence, unless one of them has no JSON form. -/
def toItems? : List Value → Option (List Json)
  | [] => some []
  | v :: rest => do return (← toJson? v) :: (← toItems? rest)

/-- The entries of a mapping, unless one of them has no JSON form. -/
def toMembers? : List (Value × Value) → Option (List (Text × Json))
  | [] => some []
  | (k, v) :: rest => do return (← memberName? k, ← toJson? v) :: (← toMembers? rest)

end

end Value

namespace Script

open Operation in
/-- The fields of an operation, as they are written. -/
def writtenFields? : Operation → Option (List (Field × Json))
  | delete path => some [(.path, .string path)]
  | update path value => do return [(.path, .string path), (.value, ← value.toJson?)]
  | rename path newName => some [(.path, .string path), (.newName, .string newName)]
  | mapAdd path key value => do
    return [(.path, .string path), (.key, .string key), (.value, ← value.toJson?)]
  | seqAdd path value index => do
    return [(.path, .string path), (.value, ← value.toJson?)] ++
      (index.map fun n => (Field.index, Json.integer n)).toList

/-- An operation as a JSON object; `none` if its value has no JSON form. -/
def toJson? (o : Operation) : Option Json := do
  let fields ← writtenFields? o
  let members := fields.map fun (field, item) => (field.name, item)
  return .object (("op".toList, .string o.name) :: members)

/-- The text of a script. -/
def write? (os : List Operation) : Option Text := do
  return (Json.array (← os.mapM toJson?)).render

end Script

end YamlEdit
