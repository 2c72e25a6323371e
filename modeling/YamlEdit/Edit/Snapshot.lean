import YamlEdit.Edit.Error

/-!
# Snapshots

A text with its tree, its anchors and its lines. Edits are planned on a snapshot, and every edit
makes a new one.
-/

namespace YamlEdit

/-- A text that has been read, with its tree. -/
structure Snapshot where
  map : SourceMap
  tree : Tree
  deriving Repr

/-- The node that a path leads to, with the one above it. -/
structure Target where
  node : Node
  parent : Option Node
  /-- The number of the node among the children of its parent. -/
  index : Option Nat
  deriving Repr

open EditError (Result)

/-- The collection that a target is an entry of, and its number there. -/
def Target.entry (t : Target) (action : EntryAction) : Result (Node × Nat) :=
  match t.parent, t.index with
  | some parent, some index =>
    if parent.kind.isWrapper then .error (.mismatch (.root action)) else .ok (parent, index)
  | _, _ => .error (.mismatch (.root action))

/-- The key of the value at `index` of a mapping. -/
def Node.pairedKey (mapping : Node) (index : Nat) : Result Node :=
  let fault : EditError := .shape (.keyNotValue index mapping.start)
  if index % 2 = 0 then .error fault
  else match mapping.children[index - 1]? with
    | some key => .ok key
    | none => .error fault

namespace Snapshot

/-- Reads a text, which has to be well formed. -/
def ofText (source : Text) : Result Snapshot :=
  let map := SourceMap.ofText source
  match Node.ofText map with
  | .error e => .error (EditError.ofTree source e)
  | .ok root => .ok ⟨map, Tree.ofRoot root⟩

/-- The text. -/
def source (s : Snapshot) : Text := s.map.source

/-- The lines of the text. -/
def lines (s : Snapshot) : LineIndex := s.map.lines

/-- The byte offset of a position. -/
def offset (s : Snapshot) (p : Position) : Nat := s.map.offset p

/-- The byte offset at which a node starts. -/
def startOf (s : Snapshot) (n : Node) : Nat := s.offset n.start

/-- The byte offset at which a node ends. -/
def stopOf (s : Snapshot) (n : Node) : Nat := s.offset n.stop

/-- The node that a path leads to. -/
def resolve (s : Snapshot) (path : Text) : Result Target := do
  let selector ← (Selector.parse path).mapError (.path path)
  match ← s.tree.locate selector with
  | none => throw (.notFound path)
  | some l =>
    let node ← s.tree.node l.target
    match l.parent with
    | none => return ⟨node, none, none⟩
    | some parent => return ⟨node, some (← s.tree.node parent), l.index?⟩

/-- The text of a node. -/
def textOf (s : Snapshot) (n : Node) : Result Text := s.source.slice (s.startOf n) (s.stopOf n)

/-- The value that a node is written as; blanks in front of its text keep its lines aligned. -/
def valueOf (s : Snapshot) (n : Node) : Result Value := do
  let text := Text.spaces n.start.column ++ (← s.textOf n)
  (Value.parse text).mapError .unreadable

/-- The text between the start of the line that holds `offset` and `offset`. -/
def linePrefix (s : Snapshot) (offset : Nat) : Result Text :=
  s.source.slice (s.lines.lineStart (s.lines.position offset).line) offset

/-- An insertion of whole lines after the line that holds `p`. At the end of a text without a
final line feed, the line feed goes in front of them. -/
def insertAfterLine (s : Snapshot) (p : Position) (content : Text) : Nat × Text :=
  let place := s.lines.nextLineStart p
  if place = Text.size s.source ∧ !s.source.isEmpty ∧ s.source.getLast? ≠ some '\n' then
    (place, '\n' :: content.trimLineFeeds)
  else (place, content)

end Snapshot

end YamlEdit
