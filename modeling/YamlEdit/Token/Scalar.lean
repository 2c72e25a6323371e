import YamlEdit.Token.Scanner

/-!
# Scanning scalars

Plain scalars, quoted scalars and block scalars. A line break inside a plain, quoted or folded
scalar is *folded*: one break becomes a space, and of several breaks the first one is dropped.
-/

namespace YamlEdit

namespace Scan

open Token

/-- Three `-` or `.` and then white space. -/
def isDocumentMarker (c : Char) (t : Text) : Bool :=
  t.take 3 == [c, c, c] && isSpaceOrEnd (t.getD 3 '\x00')

/-- Whether the mark of a document start comes next. -/
def atDocumentStart : Scan Bool := return isDocumentMarker '-' (← get).rest

/-- Whether the mark of a document end comes next. -/
def atDocumentEnd : Scan Bool := return isDocumentMarker '.' (← get).rest

/-- Whether one of the two marks comes next. -/
def atDocumentMarker : Scan Bool := return (← atDocumentStart) || (← atDocumentEnd)

/-- White space that was read and not yet written: blanks of a line, or line breaks. -/
structure Gap where
  blanks : Text
  /-- Whether a line was left. -/
  broken : Bool
  /-- Number of line breaks after the first one. -/
  emptyLines : Nat

/-- Nothing between two words. -/
def Gap.none : Gap := ⟨[], false, 0⟩

/-- The gap inside a scalar: line breaks are folded. -/
def Gap.fold (gap : Gap) : Text :=
  if gap.broken then
    if gap.emptyLines = 0 then [' '] else List.replicate gap.emptyLines '\n'
  else gap.blanks

/-! ## Plain scalars -/

/-- Whether a plain scalar goes on with `c`, which is followed by `next`. -/
def isPlainChar (inFlow : Bool) (c next : Char) : Bool :=
  if isSpaceOrEnd c then false
  else if c = ':' ∧ (isSpaceOrEnd next ∨ (inFlow ∧ isFlow next)) then false
  else !(inFlow && isFlow c)

/-- The longest start of a text that has no white space and stays in the plain scalar. -/
def plainWord (inFlow : Bool) : Text → Text
  | [] => []
  | c :: t => if isPlainChar inFlow c (t.headD '\x00') then c :: plainWord inFlow t else []

/-- Reads the white space after a word of a plain scalar. In the indentation of a line that is
not empty, `column` and beyond, there is no tab. -/
def plainGap (start : Mark) (column : Int) : (fuel : Nat) → Gap → Scan Gap
  | 0, gap => pure gap
  | fuel + 1, gap => do
    let c ← peek
    if isSpace c then
      if !(← get).leading then
        skipSpace
        plainGap start column fuel { gap with blanks := gap.blanks ++ [c] }
      else if (← mark).column < column ∧ c = '\t' then
        let _ ← skipToLineEnd true
        if !isBreakOrEnd (← peek) then failAt start .plainTab
        plainGap start column fuel gap
      else
        skipSpace
        plainGap start column fuel gap
    else if isBreak c then
      if (← get).leading then
        skipBreak
        plainGap start column fuel { gap with emptyLines := gap.emptyLines + 1 }
      else
        skipBreak
        plainGap start column fuel ⟨[], true, gap.emptyLines⟩
    else pure gap

/-- Reads the words of a plain scalar onto `back`, which has its last character first: the text and
the end of the last word. -/
def plainWords (start : Mark) (column : Int) :
    (fuel : Nat) → Gap → (back : Text) → Mark → Scan (Text × Mark)
  | 0, _, back, stop => pure (back.reverse, stop)
  | fuel + 1, gap, back, stop => do
    if ((← get).leading && (← atDocumentMarker)) || (← peek) = '#' then
      return (back.reverse, stop)
    let inFlow := 0 < (← get).flowLevel
    if inFlow ∧ (← peek) = '-' ∧ isFlow (← peekAt 1) then fail .plainDash
    let word := plainWord inFlow (← get).rest
    let (gap, back, stop) ←
      if word.isEmpty then pure (gap, back, stop)
      else do
        skipContent word.length
        pure (Gap.none, word.reverse ++ gap.fold.reverse ++ back, ← mark)
    if isSpaceOrBreak (← peek) then
      let gap ← plainGap start column (← Scan.fuel) gap
      if !inFlow ∧ (← mark).column < column then return (back.reverse, stop)
      plainWords start column fuel gap back stop
    else return (back.reverse, stop)

/-- A plain scalar. In a flow collection it may not start left of the block around it. -/
def scanPlain : Scan (Located Token) := do
  unrollProvisional
  let column := (← get).indent + 1
  let start ← mark
  if 0 < (← get).flowLevel ∧ start.column < column then failAt start .flowIndentation
  let (text, stop) ← plainWords start column (← fuel) Gap.none [] start
  if (← get).leading then allowKey
  if text.isEmpty then failAt start .plainEmpty
  return ⟨⟨start, stop⟩, .scalar .plain text⟩

/-! ## Quoted scalars -/

/-- Reads an escape, its backslash included. -/
def quotedEscape (start : Mark) : Scan Char := do
  let letter ← peekAt 1
  match simpleEscape? letter, escapeLength? letter with
  | some c, _ =>
    skipContent 2
    return c
  | none, none => failAt start .quotedEscape
  | none, some count =>
    skipContent 2
    match ((← get).rest.take count).mapM Text.hexValue? with
    | none => failAt start .quotedHexDigit
    | some digits =>
      if digits.length < count then failAt start .quotedHexDigit
      match Text.charOfNat? (digits.foldl (fun n d => 16 * n + d) 0) with
      | none => failAt start .quotedCodepoint
      | some c =>
        skipContent count
        return c

/-- Reads the characters up to the next white space or the closing quote onto `back`, which has its
last character first. The flag says whether an escaped line break came last. -/
def quotedWord (single : Bool) (start : Mark) :
    (fuel : Nat) → (back : Text) → Scan (Text × Bool)
  | 0, back => pure (back, false)
  | fuel + 1, back => do
    let c ← peek
    if isSpaceOrEnd c then return (back, false)
    if single then
      if c = '\'' then
        if (← peekAt 1) = '\'' then
          skipContent 2
          quotedWord single start fuel ('\'' :: back)
        else return (back, false)
      else
        skipContent 1
        quotedWord single start fuel (c :: back)
    else if c = '"' then return (back, false)
    else if c = '\\' then
      if isBreak (← peekAt 1) then
        skipContent 1
        skipBreak
        return (back, true)
      else
        let d ← quotedEscape start
        quotedWord single start fuel (d :: back)
    else
      skipContent 1
      quotedWord single start fuel (c :: back)

/-- Reads the white space between two words of a quoted scalar. After an escaped line break the
gap is broken without a break of its own, which `escaped` says. -/
def quotedGap (escaped : Bool) : (fuel : Nat) → Gap → Scan Gap
  | 0, gap => pure gap
  | fuel + 1, gap => do
    let c ← peek
    if isSpace c then
      if gap.broken ∨ escaped then
        if c = '\t' ∧ (← mark).column < (← get).indent then fail .quotedTab
        skipSpace
        quotedGap escaped fuel gap
      else
        skipSpace
        quotedGap escaped fuel { gap with blanks := gap.blanks ++ [c] }
    else if isBreak c then
      skipBreak
      if gap.broken ∨ escaped then
        quotedGap escaped fuel { gap with emptyLines := gap.emptyLines + 1 }
      else quotedGap escaped fuel ⟨[], true, gap.emptyLines⟩
    else pure gap

/-- Reads a quoted scalar after its opening quote, up to the closing one, onto `back`, which has its
last character first. -/
def quotedText (single : Bool) (start : Mark) : (fuel : Nat) → (back : Text) → Scan Text
  | 0, back => pure back.reverse
  | fuel + 1, back => do
    if (← mark).column = 0 ∧ (← atDocumentMarker) then failAt start .quotedDocumentIndicator
    if isEnd (← peek) then failAt start .quotedEnd
    if (← mark).column < (← get).indent then failAt start .quotedIndentation
    let (back, escaped) ← quotedWord single start (← Scan.fuel) back
    if (← peek) = (if single then '\'' else '"') then return back.reverse
    let gap ← quotedGap escaped (← Scan.fuel) Gap.none
    -- the empty lines after an escaped break stand for themselves
    let between := if escaped then List.replicate gap.emptyLines '\n' else gap.fold
    quotedText single start fuel (between.reverse ++ back)

/-- What may come after the closing quote on its line. -/
def isAfterQuote (s : Scanner) (start : Mark) (c : Char) : Bool :=
  isBreakOrEnd c ||
    if 0 < s.flowLevel then c == ',' || c == '\x7d' || c == ']' || c == ':'
    else c == ':' && start.line == s.mark.line

/-- A scalar in single or double quotes, with what may follow it on its line. -/
def scanQuoted (single : Bool) : Scan (Located Token) := do
  let start ← mark
  skipContent 1
  let text ← quotedText single start (← fuel) []
  skipContent 1
  let _ ← skipToLineEnd true
  if !isAfterQuote (← get) start (← peek) then fail .quotedRest
  let style := if single then ScalarStyle.singleQuoted else .doubleQuoted
  return ⟨⟨start, ← mark⟩, .scalar style text⟩

/-! ## Block scalars -/

/-- What becomes of the line breaks at the end of a block scalar. -/
inductive Chomping where
  | strip
  | clip
  | keep
  deriving DecidableEq

/-- Reads a chomping indicator. -/
def chompingIndicator : Scan (Option Chomping) := do
  let c ← peek
  if c = '+' then skipContent 1; return some .keep
  else if c = '-' then skipContent 1; return some .strip
  else return none

/-- Reads an indentation indicator; without one the result is zero. -/
def indentIndicator (start : Mark) : Scan Nat := do
  let c ← peek
  if Text.isDigit c then
    if c = '0' then failAt start .blockIndentZero
    skipContent 1
    return Text.digitValue c
  else return 0

/-- Reads the indicators of a block scalar, which come in either order. -/
def blockIndicators (start : Mark) : Scan (Chomping × Nat) := do
  match ← chompingIndicator with
  | some chomping => return (chomping, ← indentIndicator start)
  | none =>
    let increment ← indentIndicator start
    if increment = 0 then return (.clip, 0)
    return ((← chompingIndicator).getD .clip, increment)

/-- Steps over empty lines and over the indentation of the first line that is not empty; `indent`
is the greatest indentation that is skipped. The result is the number of lines. -/
def skipBlockIndent (indent : Nat) : (fuel : Nat) → (lines : Nat) → Scan Nat
  | 0, lines => pure lines
  | fuel + 1, lines => do
    let column := (← mark).column
    let blanks := ((← get).rest.take (indent - column)).takeWhile (· == ' ')
    skipN blanks.length
    if isBreak (← peek) then
      skipBreak
      skipBlockIndent indent fuel (lines + 1)
    else return lines

/-- Steps over empty lines and the indentation of the first other line, whatever it is: the
number of lines and the greatest indentation met. -/
def findBlockIndent : (fuel : Nat) → (widest lines : Nat) → Scan (Nat × Nat)
  | 0, widest, lines => pure (widest, lines)
  | fuel + 1, widest, lines => do
    let _ ← takeLine (· == ' ')
    let widest := max widest (← mark).column
    if isBreak (← peek) then
      skipBreak
      findBlockIndent fuel widest (lines + 1)
    else return (widest, lines)

/-- A block scalar in the making. -/
structure BlockText where
  text : Text
  /-- Whether the last line ended with a break that is not yet written. -/
  broken : Bool
  emptyLines : Nat
  /-- Whether the last line started with white space. -/
  spaced : Bool

/-- Line feeds. -/
def breaks (n : Nat) : Text := List.replicate n '\n'

/-- Adds a line. Folding joins it to the line before, unless one of the two starts with white
space. -/
def BlockText.add (b : BlockText) (folded : Bool) (line : Text) : BlockText :=
  let spaced := isSpace (line.headD '\x00')
  let before :=
    if folded ∧ b.broken ∧ !b.spaced ∧ !spaced then
      if b.emptyLines = 0 then [' '] else breaks b.emptyLines
    else (if b.broken then ['\n'] else []) ++ breaks b.emptyLines
  ⟨b.text ++ before ++ line, false, 0, spaced⟩

/-- Reads the lines of a block scalar that are indented by `indent`. -/
def blockLines (folded : Bool) (indent : Nat) : (fuel : Nat) → BlockText → Scan BlockText
  | 0, b => pure b
  | fuel + 1, b => do
    if (← mark).column ≠ indent ∨ isEnd (← peek) then return b
    if indent = 0 ∧ (← atDocumentEnd) then return b
    let b := b.add folded (← takeLine (!isBreakOrEnd ·))
    if isEnd (← peek) then return b
    skipBreak
    let lines ← skipBlockIndent indent (← Scan.fuel) 0
    blockLines folded indent fuel { b with broken := true, emptyLines := lines }

/-- The text of a block scalar with its last line breaks; `ended` says whether it reached the end
of the document within its last line. -/
def BlockText.finish (b : BlockText) (chomping : Chomping) (ended : Bool) : Text :=
  b.text ++
    (if chomping = .strip then []
      else (if b.broken then ['\n'] else []) ++ (if ended then ['\n'] else [])) ++
    (if chomping = .keep then breaks b.emptyLines else [])

/-- A literal or folded scalar: its header, then its lines. -/
def scanBlock (folded : Bool) : Scan (Located Token) := do
  let style := if folded then ScalarStyle.folded else .literal
  let start ← mark
  skipContent 1
  unrollProvisional
  let (chomping, increment) ← blockIndicators start
  let _ ← skipToLineEnd true
  if !isBreakOrEnd (← peek) then failAt start .blockHeaderRest
  let headerBreak := isBreak (← peek)
  skipBreak
  if (← peek) = '\t' then failAt start .blockTabStart
  let outer := (← get).indent
  let (indent, lines) ←
    if 0 < increment then do
      let indent := (if 0 ≤ outer then outer else 0).toNat + increment
      pure (indent, ← skipBlockIndent indent (← fuel) 0)
    else do
      let (widest, lines) ← findBlockIndent (← fuel) 0 0
      let indent := max widest (outer + 1).toNat
      pure (if 0 < outer then max indent 1 else indent, lines)
  if isEnd (← peek) then
    let text :=
      if chomping = .strip ∨ (← mark).line = start.line then []
      else if chomping = .clip ∨ lines = 0 then (if headerBreak then ['\n'] else [])
      else breaks lines
    return ⟨⟨start, ← mark⟩, .scalar style text⟩
  let column := (← mark).column
  if column < indent ∧ outer < column then fail .blockLineIndentation
  let start ← mark
  let b ← blockLines folded indent (← fuel) ⟨[], false, lines, false⟩
  let ended := isEnd (← peek) && max indent 1 ≤ (← mark).column
  return ⟨⟨start, ← mark⟩, .scalar style (b.finish chomping ended)⟩

end Scan

end YamlEdit
