import YamlEdit.Diff.Shortest
import YamlEdit.Diff.Slide

/-!
# Unified diffs

A diff as text: hunks of changed lines with three lines of context around them. Changes whose
contexts overlap share a hunk.
-/

namespace YamlEdit

namespace Diff

/-- A change in place: the old lines from `oldStart` to `oldStop` became the new ones from
`newStart` to `newStop`. -/
structure Change where
  oldStart : Nat
  oldStop : Nat
  newStart : Nat
  newStop : Nat
  deriving DecidableEq, Repr

/-- The changes of a diff, from the given lines on. Runs without kept lines between them are one
change, the one in `opened`. -/
def changesFrom (opened : Option Change) (oldLine newLine : Nat) : Diff → List Change
  | [] => opened.toList
  | run :: rest =>
    let count := run.lines.length
    let change := opened.getD ⟨oldLine, oldLine, newLine, newLine⟩
    match run.mode with
    | .keep => opened.toList ++ changesFrom none (oldLine + count) (newLine + count) rest
    | .remove =>
      changesFrom (some { change with oldStop := change.oldStop + count }) (oldLine + count) newLine
        rest
    | .add =>
      changesFrom (some { change with newStop := change.newStop + count }) oldLine (newLine + count)
        rest

/-- The changes of a diff, from its first line on. -/
def changes (d : Diff) : List Change := changesFrom none 0 0 d

/-! ## Hunks -/

/-- The lines of context around a change. -/
def context : Nat := 3

/-- The old and the new lines of a diff. -/
structure Sides where
  old : List Text
  new : List Text

/-- The context after a change. -/
def Sides.contextAfter (s : Sides) (c : Change) : Nat :=
  min context (min (s.old.length - c.oldStop) (s.new.length - c.newStop))

/-- Elements number `start` to `stop` of a list. -/
def between (lines : List Text) (start stop : Nat) : List Text :=
  (lines.drop start).take (stop - start)

/-- A line with its sign. A blank line of context has none. A line without a line feed gets
one. -/
def signed (sign : Char) (line : Text) : Text :=
  if sign = ' ' ∧ line = ['\n'] then line
  else sign :: line ++ if line.getLast? = some '\n' then [] else ['\n']

/-- Lines of context. -/
def keptText (lines : List Text) : Text := lines.flatMap (signed ' ')

/-- The removed lines stand in front of the added ones. -/
def changeText (s : Sides) (c : Change) : Text :=
  (between s.old c.oldStart c.oldStop).flatMap (signed '-') ++
    (between s.new c.newStart c.newStop).flatMap (signed '+')

/-- Whether the contexts of two changes that follow one another overlap. -/
def joins (s : Sides) (c next : Change) : Bool :=
  min next.oldStart (s.old.length - 1) - context < c.oldStop + s.contextAfter c

/-- The changes that share a hunk with `c`, in their order, and the others. -/
def takeHunk (s : Sides) (c : Change) : List Change → List Change × List Change
  | [] => ([c], [])
  | next :: rest =>
    if joins s c next then
      let (hunk, others) := takeHunk s next rest
      (c :: hunk, others)
    else ([c], next :: rest)

/-- The text of the changes of a hunk, with what stands between them and after the last one. -/
def hunkBody (s : Sides) : List Change → Text
  | [] => []
  | [c] =>
    changeText s c ++ keptText (between s.new c.newStop (c.newStop + s.contextAfter c))
  | c :: next :: rest =>
    changeText s c ++ keptText (between s.new c.newStop next.newStart) ++ hunkBody s (next :: rest)

/-- The lines from `start` to `stop`, counted from one. An empty range names the line in front of
it, and a range of one line has no count. -/
def rangeText (start stop : Nat) : Text :=
  let count := stop - start
  Text.ofNat (if count = 0 then start else start + 1) ++
    if count = 1 then [] else ',' :: Text.ofNat count

/-- The text of a hunk that starts with `first` and ends with `last`. -/
def hunkText (s : Sides) (first last : Change) (hunk : List Change) : Text :=
  let oldStart := first.oldStart - context
  let newStart := first.newStart - context
  let after := s.contextAfter last
  "@@ -".toList ++ rangeText oldStart (last.oldStop + after) ++ " +".toList ++
    rangeText newStart (last.newStop + after) ++ " @@\n".toList ++
    keptText (between s.new newStart first.newStart) ++ hunkBody s hunk

/-- The hunks one after the other; every hunk takes at least one change. -/
def hunksText (s : Sides) : (fuel : Nat) → List Change → Text
  | 0, _ => []
  | _ + 1, [] => []
  | fuel + 1, c :: rest =>
    let (hunk, others) := takeHunk s c rest
    hunkText s c (hunk.getLast?.getD c) hunk ++ hunksText s fuel others

/-- The names of the two sides. -/
def header : Text := "--- original\n+++ modified\n".toList

/-- The unified diff of two texts. -/
def unified (old new : Text) : Text :=
  let s : Sides := ⟨old.rawLines, new.rawLines⟩
  let found := changes (slide (shortest s.old s.new))
  header ++ hunksText s found.length found

end Diff

end YamlEdit
