import YamlEdit.Diff.Unified
import YamlEdit.Plan.Operation

/-!
# The editor

An `Editor` holds a document and a queue of operations. Rendering applies them one after the other,
each one to the text that the one before it left. The first one that fails ends the rendering: the
edits in front of it stay, and those behind it are dropped.
-/

namespace YamlEdit

/-- What an editor is at. -/
inductive EditorState where
  | idle
  /-- Operations wait, or are being applied. -/
  | applying
  deriving DecidableEq, Repr

/-- A text under edit, with the operations that wait to be applied to it. -/
structure Editor where
  /-- The text as it was loaded. -/
  original : Text
  snapshot : Snapshot
  queue : List Operation
  state : EditorState

namespace Editor

open EditError (Result)

/-- An editor for a text, which has to be well formed. -/
def load (source : Text) : Result Editor := do
  return ⟨source, ← Snapshot.ofText source, [], .idle⟩

/-- The text with all edits so far. -/
def source (e : Editor) : Text := e.snapshot.source

/-- Operations are applied in the order in which they came. -/
def enqueue (e : Editor) (o : Operation) : Editor :=
  { e with queue := e.queue ++ [o], state := .applying }

/-- The snapshot after an operation. -/
def apply (s : Snapshot) (o : Operation) : Result Snapshot := do
  let splice ← Plan.operation s o
  Snapshot.ofText (← splice.apply s.source)

/-- The snapshot after operations, up to the first one that fails, and its error. -/
def applyAll (s : Snapshot) : List Operation → Snapshot × Option EditError
  | [] => (s, none)
  | o :: rest =>
    match apply s o with
    | .ok s => applyAll s rest
    | .error e => (s, some e)

/-- Applies the queue: the editor after that, and the text or the first error. Nothing waits
afterwards, also if an operation failed. -/
def render (e : Editor) : Editor × Result Text :=
  let (s, failure) := applyAll e.snapshot e.queue
  ({ e with snapshot := s, queue := [], state := .idle },
    match failure with
    | none => .ok s.source
    | some error => .error error)

/-- The node at a path of the current text. -/
def find (e : Editor) (path : Text) : Result Node := do return (← e.snapshot.resolve path).node

/-- The value at a path. -/
def value (e : Editor) (path : Text) : Result Value := do e.snapshot.valueOf (← e.find path)

/-- The unified diff from the text that was loaded to the current one. -/
def diff (e : Editor) : Text := Diff.unified e.original e.source

/-- Whether the text differs from the one that was loaded. -/
def isModified (e : Editor) : Bool := e.original != e.source

end Editor

end YamlEdit
