import YamlEdit.Token.Scalar

/-!
# Scanning anchors, tags and directives
-/

namespace YamlEdit

namespace Scan

open Token

/-- An anchor, or an alias to one. -/
def scanAnchor (isAlias : Bool) : Scan (Located Token) := do
  let start ← mark
  skipContent 1
  let name := (← get).rest.takeWhile isAnchorChar
  skipN name.length
  if name.isEmpty then failAt start .anchorName
  return ⟨⟨start, ← mark⟩, if isAlias then .aliasTo name else .anchor name⟩

/-! ## Tags -/

/-- Reads one `%` escape: the byte it stands for. -/
def escapedByte (start : Mark) : Scan Nat := do
  match (← peek) == '%', Text.hexValue? (← peekAt 1), Text.hexValue? (← peekAt 2) with
  | true, some high, some low =>
    skipContent 3
    return 16 * high + low
  | _, _, _ => failAt start .tagEscape

/-- Reads the bytes after the first one of an escaped character onto the number `code`. -/
def escapedRest (start : Mark) : (count : Nat) → (code : Nat) → Scan Nat
  | 0, code => pure code
  | count + 1, code => do
    let byte ← escapedByte start
    if byte < 0x80 ∨ 0xC0 ≤ byte then failAt start .tagTrailingByte
    escapedRest start count (256 * code + byte)

/-- Reads an escaped character. Its bytes, put side by side, have to be the number of one. -/
def escapedChar (start : Mark) : Scan Char := do
  let byte ← escapedByte start
  match byteCount? byte with
  | none => failAt start .tagLeadingByte
  | some count =>
    match Text.charOfNat? (← escapedRest start (count - 1) byte) with
    | none => failAt start .tagCodepoint
    | some c => return c

/-- Reads a character of a tag, which may be escaped. -/
def tagChar (start : Mark) : Scan Char := do
  let c ← peek
  if c = '%' then escapedChar start
  else
    skipContent 1
    return c

/-- Reads the characters of a tag that satisfy `p`. -/
def tagChars (start : Mark) (p : Char → Bool) : (fuel : Nat) → Scan Text
  | 0 => pure []
  | fuel + 1 => do
    if !p (← peek) then return []
    let c ← tagChar start
    return c :: (← tagChars start p fuel)

/-- Reads a handle: `!`, a name and perhaps another `!`. A directive needs the second one. -/
def tagHandle (directive : Bool) (start : Mark) : Scan Text := do
  if (← peek) ≠ '!' then failAt start .tagBang
  skipContent 1
  let name ← takeLine isNameChar
  if (← peek) = '!' then
    skipContent 1
    return '!' :: name ++ ['!']
  else
    if directive ∧ !name.isEmpty then failAt start .tagDirectiveBang
    return '!' :: name

/-- A tag. A lone `!` is a tag without a handle. -/
def scanTag : Scan (Located Token) := do
  let start ← mark
  let token ←
    if (← peekAt 1) = '<' then do
      skipContent 2
      let tag ← tagChars start isUriChar (← fuel)
      if (← peek) ≠ '>' then failAt start .verbatimTagEnd
      skipContent 1
      pure (Token.tag [] tag)
    else do
      let handle ← tagHandle false start
      let rest ← tagChars start isTagChar (← fuel)
      if isFullHandle handle then
        if rest.isEmpty then failAt start .tagUri
        pure (Token.tag handle rest)
      else
        let rest := handle.drop 1 ++ rest
        pure (if rest.isEmpty then Token.tag [] ['!'] else Token.tag ['!'] rest)
  let c ← peek
  if isSpaceOrEnd c ∨ (0 < (← get).flowLevel ∧ isFlow c) then
    return ⟨⟨start, ← mark⟩, token⟩
  failAt start .tagRest

/-! ## Directives -/

/-- A part of a version: at most nine digits. -/
def versionNumber (start : Mark) : Scan Nat := do
  let digits := (← get).rest.takeWhile Text.isDigit
  if 9 < digits.length then failAt start .versionTooLong
  if digits.isEmpty then failAt start .versionNumber
  skipContent digits.length
  return Text.toNatDigits digits

/-- The version of a version directive. -/
def versionDirective (start : Mark) : Scan Token := do
  let _ ← takeLine isSpace
  let major ← versionNumber start
  if (← peek) ≠ '.' then failAt start .versionDot
  skipContent 1
  return .versionDirective major (← versionNumber start)

/-- The characters that a tag handle stands for. -/
def handleMeaning (start : Mark) : Scan Text := do
  let c ← peek
  if c ≠ '!' ∧ !isTagChar c then failAt start .tagPrefixCharacter
  let first ← tagChar start
  return first :: (← tagChars start isUriChar (← fuel))

/-- The handle of a tag directive and what it stands for. -/
def tagDirective (start : Mark) : Scan Token := do
  let _ ← takeLine isSpace
  let handle ← tagHandle true start
  let _ ← takeLine isSpace
  let meaning ← handleMeaning start
  if !isSpaceOrEnd (← peek) then failAt start .tagDirectiveRest
  return .tagDirective handle meaning

/-- A directive; one with an unknown name declares nothing. -/
def scanDirective : Scan (Located Token) := do
  let start ← mark
  skipContent 1
  let nameStart ← mark
  let name ← takeLine isNameChar
  if name.isEmpty then failAt nameStart .directiveWithoutName
  if !isSpaceOrEnd (← peek) then failAt nameStart .directiveNameCharacter
  let token ←
    if name = "YAML".toList then versionDirective start
    else if name = "TAG".toList then tagDirective start
    else do
      skipComment
      pure (.tagDirective [] [])
  let stop ← mark
  let _ ← skipToLineEnd true
  if !isBreakOrEnd (← peek) then failAt start .directiveRest
  skipBreak
  return ⟨⟨start, stop⟩, token⟩

end Scan

end YamlEdit
