import YamlEdit.Text.Basic

/-!
# Indentation

The indentation of a line is its count of leading spaces; a tab is no indentation.
`Indentation.reindent` moves a text so that its least indented line stands at a given column. Lines
that hold nothing but white space are left empty and do not count.
-/

namespace YamlEdit

namespace Indentation

/-- The columns that a nested block collection is pushed in by. -/
def step : Nat := 2

/-- The column of what is nested in a line at the given column. -/
def nested (column : Nat) : Nat := column + step

/-- The leading spaces of a line. -/
def ofLine (line : Text) : Nat := (line.takeWhile (· == ' ')).length

/-- The indentation of the least indented line that is not blank; zero if there is none. -/
def minimum (t : Text) : Nat :=
  ((t.lines.filter (!Text.allBlank ·)).map ofLine).min?.getD 0

/-- A line moved to `column`, given the least indentation of its text. -/
def shiftLine (column least : Nat) (line : Text) : Text :=
  if line.allBlank then []
  else Text.spaces (column + (ofLine line - least)) ++ line.trimStart

/-- A first line that goes on with a line already written. -/
def continueLine (line : Text) : Text := if line.allBlank then [] else line.trimStart

/-- The text moved to `column`. Its first line stays where it is unless `indentFirst`; a single
such line stays as it is. -/
def reindent (column : Nat) (indentFirst : Bool) (t : Text) : Text :=
  if t.isEmpty ∨ (!indentFirst ∧ !t.contains '\n') then t
  else
    let shift := shiftLine column (minimum t)
    let lines := match t.lines with
      | [] => []
      | first :: rest => (if indentFirst then shift else continueLine) first :: rest.map shift
    ['\n'].intercalate lines ++ if t.getLast? = some '\n' then ['\n'] else []

end Indentation

end YamlEdit
