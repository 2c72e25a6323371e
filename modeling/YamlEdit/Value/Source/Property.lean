import YamlEdit.Value.Source.Scalar

/-!
# Scanning anchors, tags and directives of values
-/

namespace YamlEdit.Value.Source

namespace Scan

open Token (isNameChar isFullHandle byteCount?)

/-- An anchor, or an alias to one. -/
def scanAnchor (isAlias : Bool) : Scan (Located Token) := do
  let start ← mark
  skip 1
  let name ← takeLine isNameChar
  let c ← peek
  if name.isEmpty ∨ !(isGap c ∨ "?:,]\x7d%@".toList.contains c ∨ c.toNat = 0x60) then
    failIn (if isAlias then .scanAlias else .scanAnchor) start .anchorName
  return ⟨⟨start, ← mark⟩, if isAlias then .aliasTo name else .anchor name⟩

/-! ## Tags -/

/-- Reads one `%` escape: the byte it stands for. -/
def escapedByte (activity : Activity) (start : Mark) : Scan Nat := do
  match (← peek) == '%', Text.hexValue? (← peekAt 1), Text.hexValue? (← peekAt 2) with
  | true, some high, some low => return 16 * high + low
  | _, _, _ => failIn activity start .escapedOctet

/-- Reads the bytes after the first one of an escaped character. -/
def escapedRest (activity : Activity) (start : Mark) : (count : Nat) → Scan (List UInt8)
  | 0 => pure []
  | count + 1 => do
    let byte ← escapedByte activity start
    if byte < 0x80 ∨ 0xC0 ≤ byte then failIn activity start .trailingOctet
    skip 3
    return byte.toUInt8 :: (← escapedRest activity start count)

/-- Reads an escaped character, `none` for bytes that are no character. -/
def escapedChar (activity : Activity) (start : Mark) : Scan (Option Char) := do
  let byte ← escapedByte activity start
  match byteCount? byte with
  | none => failIn activity start .leadingOctet
  | some count =>
    skip 3
    let bytes := byte.toUInt8 :: (← escapedRest activity start (count - 1))
    return (String.fromUTF8? ⟨bytes.toArray⟩).bind (·.toList.head?)

/-- A character of a tag. The indicators in `more` are allowed in a tag that is written in full. -/
def isUriChar (more : Bool) (c : Char) : Bool :=
  isNameChar c || ";/?:@&=+$.%!~*'()".toList.contains c || (more && ",[]".toList.contains c)

/-- Reads the characters of a tag. -/
def uriChars (activity : Activity) (start : Mark) (more : Bool) :
    (fuel : Nat) → Scan (List (Option Char))
  | 0 => pure []
  | fuel + 1 => do
    let c ← peek
    if !isUriChar more c then return []
    let d ←
      if c = '%' then escapedChar activity start
      else do
        skip 1
        pure (some c)
    return d :: (← uriChars activity start more fuel)

/-- The text of the characters of a tag. A NUL ends it, and so NUL can stand for bytes that are no
character. -/
def uriText (cs : List (Option Char)) : Text :=
  (cs.takeWhile (· != some '\x00')).map (·.getD '\x00')

/-- Reads at least one character of a tag. -/
def uri (activity : Activity) (start : Mark) (more : Bool) : Scan Text := do
  let tag ← uriChars activity start more (← fuel)
  if tag.isEmpty then failIn activity start .tagUri
  return uriText tag

/-- Reads a handle: `!`, a name and perhaps another `!`. A directive needs the second one. -/
def tagHandle (directive : Bool) (start : Mark) : Scan Text := do
  if (← peek) ≠ '!' then
    failIn (if directive then .scanDirectiveHandle else .scanTag) start .expectedBang
  skip 1
  let name ← takeLine isNameChar
  if (← peek) = '!' then
    skip 1
    return '!' :: name ++ ['!']
  else
    if directive ∧ !name.isEmpty then failIn .parseDirectiveHandle start .expectedBang
    return '!' :: name

/-- A tag. A lone `!` is a tag without a handle. -/
def scanTag : Scan (Located Token) := do
  let start ← mark
  let token ←
    if (← peekAt 1) = '<' then do
      skip 2
      let tag ← uri .parseTag start true
      if (← peek) ≠ '>' then failIn .scanTag start .verbatimTagEnd
      skip 1
      pure (Token.tag [] tag)
    else do
      let handle ← tagHandle false start
      if isFullHandle handle then pure (Token.tag handle (← uri .parseTag start false))
      else
        let rest := handle.drop 1 ++ uriText (← uriChars .parseTag start false (← fuel))
        pure (if rest.isEmpty then Token.tag [] ['!'] else Token.tag ['!'] rest)
  let c ← peek
  if !isGap c ∧ ((← get).flowLevel = 0 ∨ c ≠ ',') then failIn .scanTag start .expectedGap
  return ⟨⟨start, ← mark⟩, token⟩

/-! ## Directives -/

/-- A part of a version: at most nine digits. -/
def versionNumber (start : Mark) : Scan Nat := do
  let digits := (← get).rest.takeWhile Text.isDigit
  if 9 < digits.length then
    skip 9
    failIn .scanVersion start .versionTooLong
  if digits.isEmpty then failIn .scanVersion start .versionNumber
  skip digits.length
  return Text.toNatDigits digits

/-- The version of a version directive. -/
def versionDirective (start : Mark) : Scan Token := do
  let _ ← takeLine isBlank
  let major ← versionNumber start
  if (← peek) ≠ '.' then failIn .scanVersion start .versionDot
  skip 1
  return .versionDirective major (← versionNumber start)

/-- The handle of a tag directive and what it stands for. -/
def tagDirective (start : Mark) : Scan Token := do
  let _ ← takeLine isBlank
  let handle ← tagHandle true start
  if !isBlank (← peek) then failIn .scanTagDirective start .expectedBlank
  let _ ← takeLine isBlank
  let meaning ← uri .parseTagDirective start true
  if !isGap (← peek) then failIn .scanTagDirective start .expectedGap
  return .tagDirective handle meaning

/-- A directive with the rest of its line. -/
def scanDirective : Scan (Located Token) := do
  let start ← mark
  skip 1
  let name ← takeLine isNameChar
  if name.isEmpty then failIn .scanDirective start .expectedDirectiveName
  if !isGap (← peek) then failIn .scanDirective start .directiveCharacter
  let token ←
    if name = "YAML".toList then versionDirective start
    else if name = "TAG".toList then tagDirective start
    else failIn .scanDirective start .unknownDirective
  let stop ← mark
  let _ ← takeLine isBlank
  skipComment
  if !isLineEnd (← peek) then failIn .scanDirective start .expectedLineEnd
  let _ ← readBreak
  return ⟨⟨start, stop⟩, token⟩

end Scan

end YamlEdit.Value.Source
