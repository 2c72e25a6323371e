import YamlEdit.Value.Scalar

/-!
# Written values

`Value.render` writes a value in block style: an entry a line, two columns for every level. The
items of a sequence under a key stand at the column of the key. A key that does not fit on the
line of its `:` is written after a `?`.
-/

namespace YamlEdit

namespace Value

/-! ## Scalars, tags and keys -/

/-- The written form of a value without parts, if it is one. -/
def scalar? (indent : Nat) : Value → Option Written
  | null => some ⟨"null".toList, true⟩
  | bool b => some ⟨if b then "true".toList else "false".toList, true⟩
  | integer n => some ⟨Text.ofInt n, true⟩
  | float x => some ⟨renderFloat x, true⟩
  | string t => some (Scalar.ofString indent t)
  | sequence [] => some ⟨"[]".toList, true⟩
  | mapping [] => some ⟨"\x7b\x7d".toList, true⟩
  | _ => none

/-- The characters that a tag can hold. -/
def isTagChar (c : Char) : Bool :=
  ('a' ≤ c && c ≤ 'z') || ('A' ≤ c && c ≤ 'Z') || Text.isDigit c ||
    "_-;/?:@&=+$,.~*'()[]".toList.contains c

/-- A byte after a percent sign, in capital hexadecimal digits. -/
def percentEscape (byte : UInt8) : Text :=
  '%' :: (Text.ofNatHex 2 byte.toNat).map Char.toUpper

/-- The text of a tag, with the characters that it cannot hold as escapes. -/
def escapedTag (tag : Text) : Text :=
  tag.flatMap fun c =>
    if isTagChar c then [c] else (String.singleton c).toUTF8.toList.flatMap percentEscape

/-- A tag with its mark. One that starts with `!` needs no other. -/
def markedTag (tag : Text) : Text := if tag.head? = some '!' then tag else '!' :: tag

/-- A tag as it is written. The tag `!` is written in full, because it has no name behind its
mark. -/
def tagText (tag : Text) : Text :=
  if tag = ['!'] then "!<".toList ++ escapedTag tag ++ ['>']
  else '!' :: escapedTag ((markedTag tag).drop 1)

/-- The bytes that a key takes before it is written, if it fits on one line. -/
def keySize? : Value → Option Nat
  | string t => if t.any Scalar.isBreak then none else some (Text.size t)
  | tagged tag v => (keySize? v).map (Text.size (markedTag tag) + ·)
  | sequence [] | mapping [] => some 0
  | v => (v.scalar? 0).map fun w => Text.size w.text

/-- The greatest size of a key on the line of its `:`. -/
def maxKeySize : Nat := 128

/-- Whether a key is short enough to stand in front of its colon. -/
def isSimpleKey (v : Value) : Bool := (keySize? v).any (· ≤ maxKeySize)

/-! ## Layout -/

/-- What stands in front of a value on its line. -/
inductive Lead where
  /-- Nothing, at the start of the text. -/
  | nothing
  /-- The indentation of an entry, so that the value is its key. -/
  | indentation
  /-- The `-` of an item. -/
  | dash
  /-- A `?`, or the `:` after such a key. -/
  | mark
  /-- A key and its `:`. -/
  | key
  deriving DecidableEq, Repr

/-- The column of the entries of a mapping below a collection at column `outer?`. -/
def mappingColumn (outer? : Option Nat) : Nat :=
  match outer? with
  | none => 0
  | some outer => outer + Scalar.step

/-- The column of the items of a sequence: below a key, or below a tag inside a mapping, that of
the mapping. -/
def sequenceColumn (outer? : Option Nat) (lead : Lead) (isTagged : Bool) : Nat :=
  match outer?, lead with
  | some outer, .key => outer
  | some outer, .mark => if isTagged then outer else outer + Scalar.step
  | _, _ => mappingColumn outer?

/-- What is written between the lead and the first entry of a collection at column `column`. -/
def beforeEntries (lead : Lead) (isTagged : Bool) (column : Nat) : Text :=
  if isTagged ∨ lead = .key then '\n' :: Text.spaces column
  else if lead = .nothing then []
  else [' ']

/-- Two pieces, the second one at the start of a line at the given column. -/
def Written.thenLine (w : Written) (column : Nat) (next : Written) : Written :=
  ⟨w.text ++ (if w.lineOpen then ['\n'] else []) ++ Text.spaces column ++ next.text,
    next.lineOpen⟩

/-- A piece after a text. -/
def Written.after (text : Text) (w : Written) : Written := ⟨text ++ w.text, w.lineOpen⟩

/-- The tag of a node, with the blank in front of it. -/
def tagPiece (lead : Lead) : Option Text → Text
  | none => []
  | some tag => (if lead = .nothing ∨ lead = .indentation then [] else [' ']) ++ tagText tag

/-- A value without parts behind its lead. -/
def writeScalar (outer? : Option Nat) (lead : Lead) (tag? : Option Text) (v : Value) : Written :=
  let spaced := tag?.isSome || !(lead = .nothing || lead = .indentation)
  Written.after (tagPiece lead tag? ++ if spaced then [' '] else [])
    ((v.scalar? (outer?.getD 0 + Scalar.step)).getD ⟨[], true⟩)

mutual

/-- Writes a value behind its lead, in a collection at column `outer?`. -/
def write (outer? : Option Nat) (lead : Lead) (tag? : Option Text) : Value → Written
  | sequence items =>
    if items.isEmpty then writeScalar outer? lead tag? (sequence [])
    else
      let column := sequenceColumn outer? lead tag?.isSome
      Written.after (tagPiece lead tag? ++ beforeEntries lead tag?.isSome column)
        (writeItems column items)
  | mapping entries =>
    if entries.isEmpty then writeScalar outer? lead tag? (mapping [])
    else
      let column := mappingColumn outer?
      Written.after (tagPiece lead tag? ++ beforeEntries lead tag?.isSome column)
        (writeEntries column entries)
  | tagged tag v => write outer? lead (some tag) v
  | v => writeScalar outer? lead tag? v

/-- Writes the items of a sequence, one under the other. -/
def writeItems (column : Nat) : List Value → Written
  | [] => ⟨[], true⟩
  | item :: rest =>
    let first := Written.after ['-'] (write (some column) .dash none item)
    if rest.isEmpty then first else Written.thenLine first column (writeItems column rest)

/-- Writes the entries of a mapping, one under the other. -/
def writeEntries (column : Nat) : List (Value × Value) → Written
  | [] => ⟨[], true⟩
  | (key, value) :: rest =>
    let first :=
      if key.isSimpleKey then
        Written.after ((write (some column) .indentation none key).text ++ [':'])
          (write (some column) .key none value)
      else
        Written.thenLine (Written.after ['?'] (write (some column) .mark none key)) column
          (Written.after [':'] (write (some column) .mark none value))
    if rest.isEmpty then first else Written.thenLine first column (writeEntries column rest)

end

/-! ## Values that cannot be written

A mapping with one entry is announced together with its key, because it could be a tagged value.
When the key is itself announced that way, the announcement of the mapping is lost, and its end
has nothing to close. -/

/-- Why a value cannot be written. -/
inductive WriteFault where
  | nestedTags
  | nothingToClose
  | entryExpected
  deriving DecidableEq, Repr

/-- A fault in words. -/
def WriteFault.message : WriteFault → Text
  | nestedTags => "serializing nested enums in YAML is not supported yet".toList
  | nothingToClose => "expected DOCUMENT-START or STREAM-END".toList
  | entryExpected => "expected SCALAR, SEQUENCE-START, MAPPING-START, or ALIAS".toList

/-- The steps in which a value is written. -/
inductive WriteStep where
  | leaf
  | openSequence
  | openMapping
  | closeSequence
  | closeMapping
  | nestedTag
  deriving DecidableEq, Repr

/-- Whether a value is announced together with its first part. -/
def isAnnouncedLate : Value → Bool
  | mapping [_] | tagged _ _ => true
  | _ => false

mutual

/-- The steps that write a value. -/
def steps (isTagged : Bool) : Value → List WriteStep
  | sequence items => .openSequence :: itemSteps items ++ [.closeSequence]
  | mapping [(k, v)] =>
    (if !isTagged && isAnnouncedLate k then [] else [.openMapping]) ++
      steps false k ++ steps false v ++ [.closeMapping]
  | mapping entries => .openMapping :: entrySteps entries ++ [.closeMapping]
  | tagged _ v => if isTagged then [.nestedTag] else steps true v
  | _ => [.leaf]

/-- The steps that write the items of a sequence. -/
def itemSteps : List Value → List WriteStep
  | [] => []
  | item :: rest => steps false item ++ itemSteps rest

/-- The steps that write the entries of a mapping. -/
def entrySteps : List (Value × Value) → List WriteStep
  | [] => []
  | (k, v) :: rest => steps false k ++ steps false v ++ entrySteps rest

end

/-- What an open collection waits for. -/
inductive Awaited where
  | item
  | key
  | value
  deriving DecidableEq, Repr

/-- The open collections after one more node. -/
def advance : List Awaited → List Awaited
  | .key :: outer => .value :: outer
  | .value :: outer => .key :: outer
  | nest => nest

/-- Checks that every end closes what is open, innermost first. -/
def checkSteps (nest : List Awaited) : List WriteStep → Except WriteFault Unit
  | [] => .ok ()
  | .leaf :: rest => checkSteps (advance nest) rest
  | .openSequence :: rest => checkSteps (.item :: advance nest) rest
  | .openMapping :: rest => checkSteps (.key :: advance nest) rest
  | .closeSequence :: rest => checkSteps (nest.drop 1) rest
  | .nestedTag :: _ => .error .nestedTags
  | .closeMapping :: rest =>
    match nest with
    | [] => .error .nothingToClose
    | .key :: outer => checkSteps outer rest
    | _ => .error .entryExpected

/-- The text of a value; it ends with a line feed. -/
def render (v : Value) : Except WriteFault Text := do
  checkSteps [] (v.steps false)
  let w := v.write none .nothing none
  return w.text ++ if w.lineOpen then ['\n'] else []

end Value

end YamlEdit
