import YamlEdit.Text.Basic

/-!
# Splices

The one change of a text that an edit comes down to: some bytes are replaced by a new text.
-/

namespace YamlEdit

/-- A change of one place of a text, in byte offsets. -/
structure Splice where
  start : Nat
  /-- The end of what is replaced; `none` for an insertion. -/
  stop : Option Nat
  content : Text
  deriving DecidableEq, Repr

namespace Splice

/-- Puts content where something else stood. A range never ends in front of its start. -/
def replace (start stop : Nat) (content : Text) : Splice := ⟨start, some (max start stop), content⟩

/-- Takes a range away. -/
def remove (start stop : Nat) : Splice := replace start stop []

/-- Puts content in front of what stands at a place. -/
def insert (place : Nat) (content : Text) : Splice := ⟨place, none, content⟩

/-- The end of what is replaced, which is empty for an insertion. -/
def finish (s : Splice) : Nat := s.stop.getD s.start

/-- The text after the change. An offset inside a character stands for the start of it. -/
def apply (s : Splice) (source : Text) : Except BadOffset Text := do
  match source.floorBoundary s.start, source.floorBoundary s.finish with
  | some start, some stop =>
    return (← source.takeBytes start) ++ s.content ++ (← source.dropBytes stop)
  | none, _ => throw ⟨s.start⟩
  | _, none => throw ⟨s.finish⟩

end Splice

end YamlEdit
