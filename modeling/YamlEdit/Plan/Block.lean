import YamlEdit.Edit.Snapshot
import YamlEdit.Edit.Splice

/-!
# Edits of block collections

Entries are lines: they are taken out and put in as whole lines, unless they share a line with
something in front of them.
-/

namespace YamlEdit

namespace Plan.Block

open EditError (Result)

/-- Where an entry begins: a pair at its key, an item at its `-`. -/
def entryStart (s : Snapshot) (parent first : Node) : Result Nat := do
  let start := s.startOf first
  if parent.isMapping then return start
  else return (← Extent.itemMarker s.source start).getD start

/-- Takes out the entry that reaches from `first` to `last`, its last child being number
`index`. -/
def remove (s : Snapshot) (parent first last : Node) (index : Nat) : Result Splice := do
  let start ← entryStart s parent first
  if (← s.linePrefix start).allBlank then
    let line := (s.lines.position start).line
    return Splice.remove (s.lines.lineStart line) (s.lines.nextLineStart last.stop)
  else
    match parent.children[index + 1]? with
    | some next => return Splice.remove start (← entryStart s parent next)
    | none =>
      let empty := if parent.isMapping then "\x7b\x7d".toList else "[]".toList
      return Splice.replace start (s.stopOf last) empty

/-- Adds lines after the line on which `last` ends. -/
def addLines (s : Snapshot) (last : Node) (content : Text) : Splice :=
  let (place, content) := s.insertAfterLine last.stop content
  Splice.insert place content

/-- The lines of a pair at a column. -/
def pairLines (column : Nat) (key value : Fragment) : Text :=
  Text.spaces column ++ key.text ++
    (if value.isContainer then
      ":\n".toList ++ value.indented (Indentation.nested column) true
    else ": ".toList ++ value.indented (Indentation.nested column) false) ++ ['\n']

/-- Adds a pair at the end of a mapping. -/
def addPair (s : Snapshot) (mapping : Node) (key value : Fragment) : Result Splice :=
  match mapping.children.head?, mapping.children.getLast? with
  | some first, some last => .ok (addLines s last (pairLines first.start.column key value))
  | _, _ => .error (.shape (.emptyBlockMapping mapping.start))

/-- The lines of an item at a column. -/
def itemLines (column : Nat) (item : Fragment) : Text :=
  Text.spaces column ++ "- ".toList ++ item.indented (Indentation.nested column) false ++ ['\n']

/-- Adds an item in front of `next`. If that stands behind something on its line, the new item
does, and `next` starts a line of its own. -/
def addItemBefore (s : Snapshot) (column : Nat) (next : Node) (item : Fragment) :
    Result Splice := do
  let start := s.startOf next
  let marker := (← Extent.itemMarker s.source start).getD start
  let before ← s.linePrefix marker
  let content := itemLines column item
  if before.allBlank then return Splice.insert (marker - Text.size before) content
  else return Splice.insert marker (content.trimStart ++ Text.spaces column)

/-- Adds an item in front of the one at `index`, or at the end. -/
def addItem (s : Snapshot) (sequence : Node) (item : Fragment) (index : Option Nat) :
    Result Splice :=
  let column := sequence.start.column
  match index.bind (sequence.children[·]?), sequence.children.getLast? with
  | some next, _ => addItemBefore s column next item
  | none, some last => .ok (addLines s last (itemLines column item))
  | none, none => .error (.shape (.emptyBlockSequence sequence.start))

end Plan.Block

end YamlEdit
