import YamlEdit.Edit.Operation
import YamlEdit.Plan.Block
import YamlEdit.Plan.Flow
import YamlEdit.Plan.Replace

/-!
# Planning an operation

`Plan.operation` gives the splice that an operation comes down to on a snapshot.
-/

namespace YamlEdit

namespace Plan

open EditError (Result)

/-- Takes out the entry at a path. -/
def delete (s : Snapshot) (path : Text) : Result Splice := do
  let target ← s.resolve path
  let (parent, index) ← target.entry .delete
  let first ← if parent.isMapping then parent.pairedKey index else pure target.node
  if parent.isFlow then
    Flow.remove s parent first target.node (if parent.isMapping then index / 2 else index)
  else Block.remove s parent first target.node index

/-- Adds a pair to the mapping at a path. -/
def mapAdd (s : Snapshot) (path key : Text) (value : Value) : Result Splice := do
  let mapping := (← s.resolve path).node
  if !mapping.isMapping then throw (.mismatch (.notMapping path mapping.kind))
  let key ← Fragment.ofValue (.string key)
  if key.isMultiline then throw (.unsupported (.multilineKey key.text))
  let value ← Fragment.ofValue value
  if mapping.isFlow then Flow.addPair s mapping key value else Block.addPair s mapping key value

/-- Adds an item to the sequence at a path. -/
def seqAdd (s : Snapshot) (path : Text) (value : Value) (index : Option Nat) : Result Splice := do
  let sequence := (← s.resolve path).node
  if !sequence.isSequence then throw (.mismatch (.notSequence path sequence.kind))
  let item ← Fragment.ofValue value
  if sequence.isFlow then Flow.addItem s sequence item index
  else Block.addItem s sequence item index

/-- The splice that carries out an operation. -/
def operation (s : Snapshot) : Operation → Result Splice
  | .delete path => delete s path
  | .update path value => update s path value
  | .rename path newName => rename s path newName
  | .mapAdd path key value => mapAdd s path key value
  | .seqAdd path value index => seqAdd s path value index

end Plan

end YamlEdit
