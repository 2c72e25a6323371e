import YamlEdit.Edit.Script
import YamlEdit.Json.Pretty

/-!
# The schema of edit scripts

A JSON schema that describes what `Script.read` accepts as objects.
-/

namespace YamlEdit

namespace Script

namespace Schema

/-- A text. -/
def text (s : String) : Json := .string s.toList

/-- An object with its members in the given order. -/
def object (members : List (String × Json)) : Json :=
  .object (members.map fun (name, value) => (name.toList, value))

/-- What a field may hold. -/
def ofField : Field → Json
  | .path | .newName | .key => object [("type", text "string")]
  | .value => .bool true
  | .index =>
    object [
      ("type", .array [text "integer", text "null"]),
      ("format", text "uint"),
      ("minimum", .integer 0)]

/-- What an operation does. -/
def purpose : Verb → String
  | .delete => "Remove the entry at `path`: a key with its value, or a sequence element."
  | .update => "Replace the value at `path`."
  | .rename => "Rename the mapping key whose value is at `path`."
  | .mapAdd => "Append `key: value` to the mapping at `path`."
  | .seqAdd =>
    "Add `value` to the sequence at `path`, before element `index` when given,\n" ++
      "otherwise at the end."

/-- The members of an operation by name. -/
def properties (v : Verb) : List (Text × Json) :=
  let fields := v.fields.map fun field => (field.name, ofField field)
  let op := ("op".toList, object [("type", text "string"), ("const", .string v.name)])
  (op :: fields).mergeSort fun a b => !List.lex b.1 a.1 fun c d => decide (c.toNat < d.toNat)

/-- The operations of one verb. All their fields but the index are required. -/
def ofVerb (v : Verb) : Json :=
  let required := v.fields.filter (· ≠ .index)
  object [
    ("description", text (purpose v)),
    ("type", text "object"),
    ("properties", .object (properties v)),
    ("required", .array (text "op" :: required.map fun field => .string field.name))]

/-- An operation is one of those of the verbs. -/
def ofOperation : Json :=
  object [
    ("description", text (
      "One queued edit. Paths use the dotted query syntax (`items[name='bob'].email`).\n\n" ++
      "In an edit script this is written as a tagged object, for example\n" ++
      "`\x7b\"op\": \"update\", \"path\": \"f.1\", \"value\": 0\x7d`.")),
    ("oneOf", .array (Verb.all.map ofVerb))]

end Schema

open Schema in
/-- The schema of a script. -/
def schema : Json :=
  object [
    ("$schema", text "https://json-schema.org/draft/2020-12/schema"),
    ("title", text "Array_of_EditOperation"),
    ("type", text "array"),
    ("items", object [("$ref", text "#/$defs/EditOperation")]),
    ("$defs", object [("EditOperation", ofOperation)])]

end Script

end YamlEdit
