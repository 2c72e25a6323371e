import YamlEdit.Edit.Snapshot
import YamlEdit.Edit.Splice

/-!
# Replacing values and keys

A value is replaced in its place. One that needs lines of its own moves below its key, and the
white space between the key and the value goes with the old value, unless a comment stands there.
-/

namespace YamlEdit

namespace Plan

open EditError (Result)

/-- A part of the source and what takes its place. -/
structure Replacement where
  start : Nat
  stop : Nat
  content : Text
  deriving DecidableEq, Repr

/-- Replaces a node itself. -/
def Replacement.ofNode (s : Snapshot) (n : Node) (content : Text) : Replacement :=
  ⟨s.startOf n, s.stopOf n, content⟩

/-- Replaces the value of a key of a block mapping. -/
def replaceUnderKey (s : Snapshot) (key node : Node) (f : Fragment) : Result Replacement := do
  let level := Indentation.nested key.start.column
  let start := s.startOf node
  let stop := s.stopOf node
  let gapStart := min (s.stopOf key) start
  let gap ← s.source.slice gapStart start
  let pulledBack := gapStart + Text.size gap.trimEnd
  if f.isContainer then
    if gap.contains '#' then
      return Replacement.ofNode s node (f.indented node.start.column false)
    else return ⟨pulledBack, stop, '\n' :: f.indented level true⟩
  else
    let isDetached := key.stop.line < node.start.line ∨ stop ≤ start
    if !gap.contains '#' ∧ isDetached then
      return ⟨pulledBack, stop, ' ' :: f.indented level false⟩
    else return Replacement.ofNode s node (f.indented level false)

/-- The splice of a replacement. What is put at an empty place keeps off from the character in
front of it. -/
def Replacement.splice (s : Snapshot) (r : Replacement) : Result Splice := do
  if r.start < r.stop ∨ r.content.head?.any Text.isBlank then
    return Splice.replace r.start r.stop r.content
  else
    let before ← s.source.takeBytes r.start
    let content := if before.getLast?.any (!Text.isBlank ·) then ' ' :: r.content else r.content
    return Splice.replace r.start r.stop content

/-- How the value `node`, child number `index` of a collection, is replaced by a fragment. -/
def replaceEntry (s : Snapshot) (path : Text) (parent node : Node) (index : Nat) (f : Fragment) :
    Result Replacement := do
  match parent.kind with
  | .mapping .block => replaceUnderKey s (← parent.pairedKey index) node f
  | .sequence .block => return Replacement.ofNode s node (f.indented node.start.column false)
  | .mapping .flow | .sequence .flow =>
    if f.isInline then return Replacement.ofNode s node f.text.trim
    else throw (.unsupported (.complexUpdate path parent.kind))
  | kind => throw (.mismatch (.updateInside kind))

/-- Replaces the value at a path. -/
def update (s : Snapshot) (path : Text) (value : Value) : Result Splice := do
  let target ← s.resolve path
  let (parent, index) ← target.entry .update
  let f ← Fragment.ofValue value
  (← replaceEntry s path parent target.node index f).splice s

/-- Replaces the key of the value at a path. -/
def rename (s : Snapshot) (path newName : Text) : Result Splice := do
  let target ← s.resolve path
  let (parent, index) ← target.entry .rename
  if !parent.isMapping then throw (.mismatch (.renameElement path parent.kind))
  let name ← Fragment.ofValue (.string newName)
  if name.isMultiline then throw (.unsupported (.multilineKey newName))
  let key ← parent.pairedKey index
  return Splice.replace (s.startOf key) (s.stopOf key) name.text

end Plan

end YamlEdit
