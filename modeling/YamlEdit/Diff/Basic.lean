import YamlEdit.Text.Basic

/-!
# Differences

A `Diff` between two lists of lines is a list of runs: lines that both sides have, lines that only
the old side has, and lines that only the new one has. `Diff.old` and `Diff.new` are its two sides.
-/

namespace YamlEdit

namespace Diff

/-- Which of the two sides a run of lines belongs to. -/
inductive Mode where
  | keep
  | remove
  | add
  deriving DecidableEq, Repr

/-- Lines that stand together and have the same fate. -/
structure Run where
  mode : Mode
  lines : List Text
  deriving DecidableEq, Repr

end Diff

/-- Runs in their order; either side is read off them. -/
abbrev Diff := List Diff.Run

namespace Diff

/-- The lines of the old side. -/
def old (d : Diff) : List Text := d.flatMap fun r => if r.mode = .add then [] else r.lines

/-- The lines of the new side. -/
def new (d : Diff) : List Text := d.flatMap fun r => if r.mode = .remove then [] else r.lines

end Diff

end YamlEdit
