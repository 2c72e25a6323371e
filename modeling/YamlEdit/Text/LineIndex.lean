import YamlEdit.Text.Basic

/-!
# Lines and columns

A `LineIndex` holds the byte offset at which every line of a text starts. It converts between
offsets and positions (line and byte column, both counted from zero); positions and offsets past
the end are clamped to the end.
-/

namespace YamlEdit

/-- A line and a byte column in it, both counted from zero. -/
structure Position where
  line : Nat
  column : Nat
  deriving DecidableEq, Repr, Inhabited

/-- Line and column counted from one, as they are shown to a reader. -/
def Position.display (p : Position) : Text :=
  Text.ofNat (p.line + 1) ++ ':' :: Text.ofNat (p.column + 1)

/-- The offsets at which the lines of a text start, and the size of the text. -/
structure LineIndex where
  lineStarts : List Nat
  size : Nat
  deriving DecidableEq, Repr

namespace LineIndex

/-- The offsets right after the line feeds of `t`, which itself starts at `offset`. -/
def startsAfter (offset : Nat) : Text → List Nat
  | [] => []
  | c :: t =>
    let next := offset + c.utf8Size
    if c = '\n' then next :: startsAfter next t else startsAfter next t

/-- Every line feed starts a line. -/
def ofText (t : Text) : LineIndex where
  lineStarts := 0 :: startsAfter 0 t
  size := t.size

/-- A text has at least one line. -/
def lineCount (index : LineIndex) : Nat := index.lineStarts.length

/-- Where a line starts; a line past the last one starts at the end of the text. -/
def lineStart (index : LineIndex) (line : Nat) : Nat :=
  index.lineStarts.getD line index.size

/-- The byte offset of a position, not beyond the end of the text. -/
def offset (index : LineIndex) (p : Position) : Nat :=
  min (index.lineStart p.line + p.column) index.size

/-- The position of `offset`, given a line that starts at or before it and the starts of the
lines that follow. -/
def positionFrom (offset line start : Nat) : List Nat → Position
  | [] => ⟨line, offset - start⟩
  | next :: rest =>
    if next ≤ offset then positionFrom offset (line + 1) next rest else ⟨line, offset - start⟩

/-- The line and the column of a byte offset; an offset beyond the end counts as the end. -/
def position (index : LineIndex) (offset : Nat) : Position :=
  positionFrom (min offset index.size) 0 0 index.lineStarts.tail

/-- Where the line after the one of `p` starts. -/
def nextLineStart (index : LineIndex) (p : Position) : Nat := index.lineStart (p.line + 1)

end LineIndex

end YamlEdit
