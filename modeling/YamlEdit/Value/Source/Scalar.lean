import YamlEdit.Value.Source.Scanner

/-!
# Scanning the scalars of values
-/

namespace YamlEdit.Value.Source

namespace Scan

open Token (simpleEscape? escapeLength?)

/-- White space between two words of a scalar. -/
structure Gap where
  blanks : Text
  /-- The first line break, if there is one. -/
  first : Option Text
  /-- The line breaks after it. -/
  others : Text

/-- Nothing between two words. -/
def Gap.none : Gap := ⟨[], .none, []⟩

/-- The gap inside a scalar: a line feed becomes a space, or vanishes in front of others. -/
def Gap.fold (gap : Gap) : Text :=
  match gap.first with
  | .none => gap.blanks
  | .some ['\n'] => if gap.others.isEmpty then [' '] else gap.others
  | .some other => other ++ gap.others

/-- Reads a line break into a gap. -/
def Gap.addBreak (gap : Gap) (b : Text) : Gap :=
  match gap.first with
  | .none => ⟨[], .some b, gap.others⟩
  | .some _ => { gap with others := gap.others ++ b }

/-! ## Plain scalars -/

/-- The marks that end a plain scalar in a flow collection. -/
def isFlowIndicator (c : Char) : Bool :=
  c == ',' || c == '[' || c == ']' || c == '\x7b' || c == '\x7d'

/-- Whether a plain scalar goes on with `c`, which is followed by `next`. -/
def isPlainChar (inFlow : Bool) (c next : Char) : Bool :=
  !isGap c && !(c == ':' && isGap next) && !(inFlow && isFlowIndicator c)

/-- Reads the characters up to the next white space or the end of the scalar onto `word`, which has
its last character first. -/
def plainWord (inFlow : Bool) (start : Mark) : (fuel : Nat) → (word : Text) → Scan Text
  | 0, word => pure word
  | fuel + 1, word => do
    let c ← peek
    let next ← peekAt 1
    if inFlow ∧ c = ':' ∧ (isFlowIndicator next ∨ next = '?') then
      failIn .scanPlain start .unexpectedColon
    if !isPlainChar inFlow c next then return word
    skip 1
    plainWord inFlow start fuel (c :: word)

/-- Reads the white space after a word. -/
def plainGap (start : Mark) (column : Int) : (fuel : Nat) → Gap → Scan Gap
  | 0, gap => pure gap
  | fuel + 1, gap => do
    let c ← peek
    if isBlank c then
      if gap.first.isSome ∧ (← mark).column < column ∧ c = '\t' then
        failIn .scanPlain start .tabInIndent
      skip 1
      plainGap start column fuel
        (if gap.first.isSome then gap else { gap with blanks := gap.blanks ++ [c] })
    else if isBreak c then
      let b ← readBreak
      plainGap start column fuel (gap.addBreak b)
    else return gap

/-- Reads the words of a plain scalar onto `back`, which has its last character first: the text, its
end, and whether a line was left behind. -/
def plainWords (start : Mark) (column : Int) :
    (fuel : Nat) → Gap → (back : Text) → Mark → Scan (Text × Mark × Bool)
  | 0, gap, back, stop => pure (back.reverse, stop, gap.first.isSome)
  | fuel + 1, gap, back, stop => do
    if (← atDocumentMarker '-') || (← atDocumentMarker '.') || (← peek) = '#' then
      return (back.reverse, stop, gap.first.isSome)
    let inFlow := 0 < (← get).flowLevel
    let word ← plainWord inFlow start (← Scan.fuel) []
    let (gap, back, stop) ←
      if word.isEmpty then pure (gap, back, stop)
      else pure (Gap.none, word ++ gap.fold.reverse ++ back, ← mark)
    if isBlank (← peek) ∨ isBreak (← peek) then
      let gap ← plainGap start column (← Scan.fuel) gap
      if !inFlow ∧ (← mark).column < column then
        return (back.reverse, stop, gap.first.isSome)
      plainWords start column fuel gap back stop
    else return (back.reverse, stop, gap.first.isSome)

/-- A plain scalar. Where it ends with a line, a key may follow. -/
def scanPlain : Scan (Located Token) := do
  let start ← mark
  let (text, stop, broken) ← plainWords start ((← get).indent + 1) (← fuel) Gap.none [] start
  if broken then setKeyAllowed true
  return ⟨⟨start, stop⟩, .scalar .plain text⟩

/-! ## Quoted scalars -/

/-- Reads an escape, its backslash included. -/
def quotedEscape (start : Mark) : Scan Char := do
  let letter ← peekAt 1
  match simpleEscape? letter, escapeLength? letter with
  | some c, _ =>
    skip 2
    return c
  | none, none => failIn .parseEscape start .unknownEscape
  | none, some count =>
    skip 2
    match ((← get).rest.take count).mapM Text.hexValue? with
    | none => failIn .parseEscape start .hexNumber
    | some digits =>
      if digits.length < count then failIn .parseEscape start .hexNumber
      match Text.charOfNat? (digits.foldl (fun n d => 16 * n + d) 0) with
      | none => failIn .parseEscape start .escapeCode
      | some c =>
        skip count
        return c

/-- Reads up to the next white space or the closing quote onto `back`, which has its last character
first. The flag says whether an escaped line break came last. -/
def quotedWord (single : Bool) (start : Mark) :
    (fuel : Nat) → (back : Text) → Scan (Text × Bool)
  | 0, back => pure (back, false)
  | fuel + 1, back => do
    let c ← peek
    let next ← peekAt 1
    if isGap c then return (back, false)
    if single ∧ c = '\'' ∧ next = '\'' then
      skip 2
      quotedWord single start fuel ('\'' :: back)
    else if c = (if single then '\'' else '"') then return (back, false)
    else if !single ∧ c = '\\' then
      if isBreak next then
        skip 1
        let _ ← readBreak
        return (back, true)
      else
        let d ← quotedEscape start
        quotedWord single start fuel (d :: back)
    else
      skip 1
      quotedWord single start fuel (c :: back)

/-- Reads the white space between two words. -/
def quotedGap : (fuel : Nat) → Gap → Scan Gap
  | 0, gap => pure gap
  | fuel + 1, gap => do
    let c ← peek
    if isBlank c then
      skip 1
      quotedGap fuel (if gap.first.isSome then gap else { gap with blanks := gap.blanks ++ [c] })
    else if isBreak c then
      let b ← readBreak
      quotedGap fuel (gap.addBreak b)
    else return gap

/-- Reads a quoted scalar after its opening quote, up to the closing one, onto `back`, which has its
last character first. -/
def quotedText (single : Bool) (start : Mark) : (fuel : Nat) → (back : Text) → Scan Text
  | 0, back => pure back.reverse
  | fuel + 1, back => do
    if (← atDocumentMarker '-') || (← atDocumentMarker '.') then
      failIn .scanQuoted start .documentIndicator
    if (← peek) = '\x00' then failIn .scanQuoted start .endOfText
    let (back, escaped) ← quotedWord single start (← Scan.fuel) back
    if (← peek) = (if single then '\'' else '"') then return back.reverse
    -- an escaped break counts as an empty first one
    let gap ← quotedGap (← Scan.fuel) (if escaped then ⟨[], some [], []⟩ else Gap.none)
    quotedText single start fuel (gap.fold.reverse ++ back)

/-- A scalar in single or double quotes. -/
def scanQuoted (single : Bool) : Scan (Located Token) := do
  let start ← mark
  skip 1
  let text ← quotedText single start (← fuel) []
  skip 1
  let style := if single then ScalarStyle.singleQuoted else .doubleQuoted
  return ⟨⟨start, ← mark⟩, .scalar style text⟩

/-! ## Block scalars -/

/-- Reads an indentation indicator; without one the result is zero. -/
def indentIndicator (start : Mark) : Scan Nat := do
  let c ← peek
  if Text.isDigit c then
    if c = '0' then failIn .scanBlock start .zeroIndent
    skip 1
    return Text.digitValue c
  else return 0

/-- Reads a chomping indicator. -/
def chompingIndicator : Scan (Option Char) := do
  let c ← peek
  if c = '+' ∨ c = '-' then
    skip 1
    return some c
  else return none

/-- Reads the indicators of a block scalar, which come in either order. -/
def blockIndicators (start : Mark) : Scan (Option Char × Nat) := do
  match ← chompingIndicator with
  | some chomping => return (some chomping, ← indentIndicator start)
  | none =>
    let increment ← indentIndicator start
    if increment = 0 then return (none, 0)
    return (← chompingIndicator, increment)

/-- Reads empty lines and the indentation of the next one: the greatest indentation, and the
breaks. An `indent` of zero is still to be found out. -/
def blockBreaks (start : Mark) (indent : Nat) :
    (fuel : Nat) → (widest : Nat) → (breaks : Text) → Scan (Nat × Text)
  | 0, widest, breaks => pure (widest, breaks)
  | fuel + 1, widest, breaks => do
    let s ← get
    let room := if indent = 0 then s.rest.length else indent - s.mark.column
    skip ((s.rest.take room).takeWhile (· == ' ')).length
    let column := (← mark).column
    let widest := max widest column
    if (indent = 0 ∨ column < indent) ∧ (← peek) = '\t' then failIn .scanBlock start .tabAsIndent
    if !isBreak (← peek) then return (widest, breaks)
    let b ← readBreak
    blockBreaks start indent fuel widest (breaks ++ b)

/-- The lines of a block scalar that were read. -/
structure BlockText where
  text : Text
  /-- The break of the last line. -/
  lastBreak : Text
  /-- The breaks of the empty lines after it. -/
  breaks : Text
  /-- Whether the last line starts with white space. -/
  spaced : Bool

/-- Reads the lines that are indented by `indent`. -/
def blockLines (folded : Bool) (start : Mark) (indent : Nat) :
    (fuel : Nat) → BlockText → Scan BlockText
  | 0, b => pure b
  | fuel + 1, b => do
    if (← mark).column ≠ indent ∨ (← peek) = '\x00' then return b
    let spaced := isBlank (← peek)
    let between :=
      if folded ∧ b.lastBreak = ['\n'] ∧ !b.spaced ∧ !spaced then
        if b.breaks.isEmpty then [' '] else []
      else b.lastBreak
    let line ← takeLine (!isLineEnd ·)
    let lastBreak ← readBreak
    let (_, breaks) ← blockBreaks start indent (← Scan.fuel) 0 []
    blockLines folded start indent fuel
      ⟨b.text ++ between ++ b.breaks ++ line, lastBreak, breaks, spaced⟩

/-- A literal or folded scalar: its header, then its lines. -/
def scanBlock (folded : Bool) : Scan (Located Token) := do
  let start ← mark
  skip 1
  let (chomping, increment) ← blockIndicators start
  let _ ← takeLine isBlank
  skipComment
  if !isLineEnd (← peek) then failIn .scanBlock start .expectedLineEnd
  let _ ← readBreak
  let outer := (← get).indent
  let given := if increment = 0 then 0 else (max outer 0).toNat + increment
  let (widest, breaks) ← blockBreaks start given (← fuel) 0 []
  let indent := if given = 0 then max (max widest (outer + 1).toNat) 1 else given
  let b ← blockLines folded start indent (← fuel) ⟨[], [], breaks, false⟩
  let text := b.text ++ (if chomping = some '-' then [] else b.lastBreak) ++
    (if chomping = some '+' then b.breaks else [])
  let style := if folded then ScalarStyle.folded else .literal
  return ⟨⟨start, ← mark⟩, .scalar style text⟩

end Scan

end YamlEdit.Value.Source
