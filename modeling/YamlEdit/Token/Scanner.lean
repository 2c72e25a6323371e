import YamlEdit.Token.Basic

/-!
# The state of the scanner

The scanner turns a document into tokens. What makes it more than a lexer is that a key is known
only when its `:` is met: a token that may start a key is remembered as a *pending key*, and the
tokens that announce the key are put in front of it later. So tokens wait in a queue, and one is
handed out only when no pending key could still come in front of it.

Indentation is a stack of columns. A column is *open* if a token closes it, and *provisional* if
it only says how far the next line has to be indented.
-/

namespace YamlEdit

/-- What can be wrong with the text of a document. -/
inductive SyntaxFault where
  | simpleKeyExpected
  | simpleKeyExpectsColon
  | invalidIndentation
  | contentAfterDocumentEnd
  | unexpectedCharacter (c : Char)
  | tabInBlockIndentation
  | tabAfterKeyIndicator
  | commentWithoutSpace
  | expectedSpace
  | tooDeep
  | directiveWithoutName
  | directiveNameCharacter
  | directiveRest
  | versionDot
  | versionTooLong
  | versionNumber
  | tagPrefixCharacter
  | tagDirectiveRest
  | verbatimTagEnd
  | tagBang
  | tagDirectiveBang
  | tagUri
  | tagRest
  | tagEscape
  | tagLeadingByte
  | tagTrailingByte
  | tagCodepoint
  | anchorName
  | blockEntryInFlow
  | blockEntryNotAllowed
  | anchorIndentation
  | tabAfterBlockEntry
  | keyNotAllowed
  | valueNotAllowed
  | valueBeforeBracket
  | tabAfterValue
  | misplacedColon
  | blockIndentZero
  | blockHeaderRest
  | blockTabStart
  | blockLineIndentation
  | quotedDocumentIndicator
  | quotedEnd
  | quotedIndentation
  | quotedTab
  | quotedEscape
  | quotedHexDigit
  | quotedCodepoint
  | quotedRest
  | flowIndentation
  | plainDash
  | plainTab
  | plainEmpty
  | expectedDocumentStart
  | duplicateVersion
  | duplicateTagHandle
  | directiveInDocument
  | undeclaredHandle
  | expectedNode
  | expectedKey
  | expectedDash
  | expectedFlowMappingEnd
  | expectedFlowSequenceEnd
  | unknownAnchor
  deriving DecidableEq, Repr

/-- A fault in words. -/
def SyntaxFault.message : SyntaxFault → Text
  | simpleKeyExpected => "simple key expected".toList
  | simpleKeyExpectsColon => "simple key expect ':'".toList
  | invalidIndentation => "invalid indentation".toList
  | contentAfterDocumentEnd => "invalid content after document end marker".toList
  | unexpectedCharacter c => "unexpected character: `".toList ++ [c, '\'']
  | tabInBlockIndentation =>
    "tabs disallowed within this context (block indentation)".toList
  | tabAfterKeyIndicator => "tabs disallowed in this context".toList
  | commentWithoutSpace =>
    "comments must be separated from other tokens by whitespace".toList
  | expectedSpace => "expected whitespace".toList
  | tooDeep => "recursion limit exceeded".toList
  | directiveWithoutName =>
    "while scanning a directive, could not find expected directive name".toList
  | directiveNameCharacter =>
    "while scanning a directive, found unexpected non-alphabetical character".toList
  | directiveRest =>
    "while scanning a directive, did not find expected comment or line break".toList
  | versionDot =>
    "while scanning a YAML directive, did not find expected digit or '.' character".toList
  | versionTooLong =>
    "while scanning a YAML directive, found extremely long version number".toList
  | versionNumber =>
    "while scanning a YAML directive, did not find expected version number".toList
  | tagPrefixCharacter => "invalid global tag character".toList
  | tagDirectiveRest =>
    "while scanning TAG, did not find expected whitespace or line break".toList
  | verbatimTagEnd => "while scanning a verbatim tag, did not find the expected '>'".toList
  | tagBang => "while scanning a tag, did not find expected '!'".toList
  | tagDirectiveBang => "while parsing a tag directive, did not find expected '!'".toList
  | tagUri => "while parsing a tag, did not find expected tag URI".toList
  | tagRest =>
    "while scanning a tag, did not find expected whitespace or line break".toList
  | tagEscape => "while parsing a tag, found an invalid escape sequence".toList
  | tagLeadingByte => "while parsing a tag, found an incorrect leading UTF-8 byte".toList
  | tagTrailingByte => "while parsing a tag, found an incorrect trailing UTF-8 byte".toList
  | tagCodepoint => "while parsing a tag, found an invalid UTF-8 codepoint".toList
  | anchorName =>
    ("while scanning an anchor or alias, did not find expected alphabetic or numeric " ++
      "character").toList
  | blockEntryInFlow => "\"-\" is only valid inside a block".toList
  | blockEntryNotAllowed => "block sequence entries are not allowed in this context".toList
  | anchorIndentation => "invalid indentation for anchor".toList
  | tabAfterBlockEntry => "'-' must be followed by a valid YAML whitespace".toList
  | keyNotAllowed => "mapping keys are not allowed in this context".toList
  | valueNotAllowed => "mapping values are not allowed in this context".toList
  | valueBeforeBracket => "':' may not precede any of `[\x7b` in flow mapping".toList
  | tabAfterValue => "':' must be followed by a valid YAML whitespace".toList
  | misplacedColon => "illegal placement of ':' indicator".toList
  | blockIndentZero =>
    "while scanning a block scalar, found an indentation indicator equal to 0".toList
  | blockHeaderRest =>
    "while scanning a block scalar, did not find expected comment or line break".toList
  | blockTabStart => "a block scalar content cannot start with a tab".toList
  | blockLineIndentation => "wrongly indented line in block scalar".toList
  | quotedDocumentIndicator =>
    "while scanning a quoted scalar, found unexpected document indicator".toList
  | quotedEnd => "while scanning a quoted scalar, found unexpected end of stream".toList
  | quotedIndentation => "invalid indentation in quoted scalar".toList
  | quotedTab => "tab cannot be used as indentation".toList
  | quotedEscape =>
    "while parsing a quoted scalar, found unknown escape character".toList
  | quotedHexDigit =>
    "while parsing a quoted scalar, did not find expected hexadecimal number".toList
  | quotedCodepoint =>
    "while parsing a quoted scalar, found invalid Unicode character escape code".toList
  | quotedRest => "invalid trailing content after double-quoted scalar".toList
  | flowIndentation => "invalid indentation in flow construct".toList
  | plainDash => "plain scalar cannot start with '-' followed by ,[]\x7b\x7d".toList
  | plainTab => "while scanning a plain scalar, found a tab".toList
  | plainEmpty => "unexpected end of plain scalar".toList
  | expectedDocumentStart => "did not find expected <document start>".toList
  | duplicateVersion => "duplicate version directive".toList
  | duplicateTagHandle =>
    ("the TAG directive must only be given at most once per handle in the same " ++
      "document").toList
  | directiveInDocument =>
    "missing explicit document end marker before directive".toList
  | undeclaredHandle => "the handle wasn't declared".toList
  | expectedNode => "while parsing a node, did not find expected node content".toList
  | expectedKey => "while parsing a block mapping, did not find expected key".toList
  | expectedDash =>
    "while parsing a block collection, did not find expected '-' indicator".toList
  | expectedFlowMappingEnd =>
    "while parsing a flow mapping, did not find expected ',' or '\x7d'".toList
  | expectedFlowSequenceEnd => "while parsing a flow sequence, expected ',' or ']'".toList
  | unknownAnchor => "while parsing node, found unknown anchor".toList

/-- A fault and the place where it was noticed. -/
structure SyntaxError where
  mark : Mark
  fault : SyntaxFault
  deriving DecidableEq, Repr

/-- The start of something that turns out to be a key when a `:` follows it. -/
structure PendingKey where
  possible : Bool
  required : Bool
  /-- Number of the token that starts the key. -/
  token : Nat
  mark : Mark
  deriving DecidableEq, Repr

/-- There is nothing that could be a key. -/
def PendingKey.none : PendingKey := ⟨false, false, 0, Mark.origin⟩

/-- A column that was left behind when a deeper one was entered. -/
structure OuterIndent where
  column : Int
  /-- Whether the deeper column is open: a token closes it. -/
  isOpen : Bool
  deriving DecidableEq, Repr

/-- How far the scanning of a text has got. -/
structure Scanner where
  /-- What is still to be read. -/
  rest : Text
  mark : Mark
  /-- Tokens that wait to be handed out, the first one first. -/
  queue : List (Located Token)
  /-- Number of tokens handed out. -/
  taken : Nat
  /-- Whether a key may start here. -/
  keyAllowed : Bool
  /-- The pending key of every open bracket and of the outside, innermost first. -/
  keys : List PendingKey
  indent : Int
  /-- The indents left behind, innermost first. -/
  outer : List OuterIndent
  /-- Number of open brackets. -/
  flowLevel : Nat
  /-- Where a `:` needs no blank after it, because what stands before it is quoted or bracketed. -/
  adjacentValueAt : Nat
  /-- Whether only white space was met on the line so far. -/
  leading : Bool
  flowMappingStarted : Bool
  /-- For every open square bracket, innermost first, whether a mapping without braces is open. -/
  pairs : List Bool
  /-- More than the characters that are left. -/
  bound : Nat
  deriving Repr

/-- The scanner in front of a document, with the token that opens every stream. -/
def Scanner.start (document : Text) : Scanner where
  rest := document
  mark := Mark.origin
  queue := [⟨Span.empty Mark.origin, .streamStart⟩]
  taken := 0
  keyAllowed := true
  keys := [PendingKey.none]
  indent := -1
  outer := []
  flowLevel := 0
  adjacentValueAt := 0
  leading := true
  flowMappingStarted := false
  pairs := []
  bound := document.length + 1

/-- A step of the scanner. -/
abbrev Scan := StateT Scanner (Except SyntaxError)

namespace Scan

open Token

/-- A fault at the given place. -/
def failAt {α : Type} (mark : Mark) (fault : SyntaxFault) : Scan α :=
  fun _ => .error ⟨mark, fault⟩

/-- Fails at the place reached. -/
def fail {α : Type} (fault : SyntaxFault) : Scan α := fun s => .error ⟨s.mark, fault⟩

/-- The place of the next character. -/
def mark : Scan Mark := return (← get).mark

/-! ## Looking and moving -/

/-- The character `n` places ahead, or the end. -/
def peekAt (n : Nat) : Scan Char := return (← get).rest.getD n '\x00'

/-- The next character, NUL behind the end. -/
def peek : Scan Char := return (← get).rest.headD '\x00'

/-- Fuel for a loop that moves on in every round. -/
def fuel : Scan Nat := return (← get).bound

/-- Steps over `n` characters of the line. -/
def skipN (n : Nat) : Scan Unit :=
  modify fun s =>
    { s with
      rest := s.rest.drop n
      mark := { s.mark with index := s.mark.index + n, column := s.mark.column + n } }

/-- Steps over a white space. -/
def skipSpace : Scan Unit := skipN 1

/-- Steps over `n` characters of content. -/
def skipContent (n : Nat) : Scan Unit := do
  skipN n
  modify fun s => { s with leading := false }

/-- Steps over one character that ends a line. -/
def skipLineEnd : Scan Unit :=
  modify fun s =>
    { s with
      rest := s.rest.drop 1
      mark := ⟨s.mark.index + 1, s.mark.line + 1, 0⟩
      leading := true }

/-- Steps over a line break: a carriage return with its line feed, or either of them alone. -/
def skipBreak : Scan Unit := do
  if (← peek) = '\r' ∧ (← peekAt 1) = '\n' then skipSpace
  if isBreak (← peek) then skipLineEnd

/-- Takes the characters of the line that satisfy `p`, as far as they reach. -/
def takeLine (p : Char → Bool) : Scan Text := do
  let taken := (← get).rest.takeWhile p
  skipN taken.length
  return taken

/-- Skips a comment up to the end of its line. -/
def skipComment : Scan Unit := discard <| takeLine (!isBreakOrEnd ·)

/-- What `skipToLineEnd` stepped over. -/
structure Skipped where
  tab : Bool
  space : Bool

/-- Steps over white space, and over the comment after it. Tabs stop the walk unless `tabs`. -/
def skipToLineEnd (tabs : Bool) : Scan Skipped := do
  let blanks ← takeLine fun c => c == ' ' || (tabs && c == '\t')
  let found : Skipped := ⟨blanks.contains '\t', blanks.contains ' '⟩
  if (← peek) = '#' then
    if blanks.isEmpty then fail .commentWithoutSpace
    skipComment
  return found

/-! ## The queue -/

/-- Adds a token behind those that wait. -/
def push (span : Span) (token : Token) : Scan Unit :=
  modify fun s => { s with queue := s.queue ++ [⟨span, token⟩] }

/-- Puts a token in front of token number `number`, which still waits. -/
def insertAt (number : Nat) (mark : Mark) (token : Token) : Scan Unit :=
  modify fun s =>
    let ahead := number - s.taken
    { s with queue := s.queue.take ahead ++ ⟨Span.empty mark, token⟩ :: s.queue.drop ahead }

/-! ## Keys -/

/-- A key without a mark may start here. -/
def allowKey : Scan Unit := modify fun s => { s with keyAllowed := true }

/-- No key without a mark may start here. -/
def forbidKey : Scan Unit := modify fun s => { s with keyAllowed := false }

/-- Remembers that the token that comes next may start a key. In a block mapping, what stands at
its column has to be one. -/
def savePendingKey : Scan Unit :=
  modify fun s =>
    if s.keyAllowed then
      let required := s.flowLevel == 0 && s.indent == s.mark.column &&
        (s.outer.head?.any (·.isOpen))
      let pending : PendingKey := ⟨true, required, s.taken + s.queue.length, s.mark⟩
      { s with keys := pending :: s.keys.drop 1 }
    else s

/-- Gives up the pending key. -/
def dropPendingKey : Scan Unit := do
  match (← get).keys with
  | [] => pure ()
  | pending :: outer =>
    if pending.possible && pending.required then fail .simpleKeyExpected
    modify fun s => { s with keys := { pending with possible := false } :: outer }

/-- A key outside brackets lies on one line and has at most 1024 characters. -/
def isStale (s : Scanner) (key : PendingKey) : Bool :=
  key.possible && s.flowLevel == 0 &&
    (key.mark.line < s.mark.line || key.mark.index + 1024 < s.mark.index)

/-- Gives up the keys that can no longer be one. -/
def dropStaleKeys : Scan Unit := do
  let s ← get
  if s.keys.any fun key => isStale s key && key.required then fail .simpleKeyExpectsColon
  set { s with
    keys := s.keys.map fun key => if isStale s key then { key with possible := false } else key }

/-! ## Indentation -/

/-- Closes the columns beyond `column`. Inside brackets indentation has no meaning. -/
def unrollIndent (column : Int) : Scan Unit :=
  modify fun s =>
    if s.flowLevel > 0 then s else closeBeyond s.outer s
where
  closeBeyond : List OuterIndent → Scanner → Scanner
    | [], s => s
    | outer :: rest, s =>
      if column < s.indent then
        closeBeyond rest
          { s with
            indent := outer.column
            outer := rest
            queue := if outer.isOpen then s.queue ++ [⟨Span.empty s.mark, .blockEnd⟩] else s.queue }
      else s

/-- Opens `column` if it is deeper than the current one, with `token` in front of token number
`number`, or at the end of the queue. -/
def rollIndent (column : Nat) (number : Option Nat) (token : Token) (mark : Mark) : Scan Unit := do
  if (← get).flowLevel = 0 then
    modify fun s =>
      match s.outer with
      | outer :: rest =>
        if s.indent ≤ column ∧ !outer.isOpen then { s with indent := outer.column, outer := rest }
        else s
      | [] => s
    if (← get).indent < column then
      modify fun s => { s with outer := ⟨s.indent, true⟩ :: s.outer, indent := column }
      match number with
      | some n => insertAt n mark token
      | none => push (Span.empty mark) token

/-- Asks that the next line be indented by one column more than the open one. -/
def rollProvisional : Scan Unit :=
  modify fun s =>
    if s.flowLevel = 0 ∧ s.outer.head?.any (·.isOpen) then
      { s with outer := ⟨s.indent, false⟩ :: s.outer, indent := s.indent + 1 }
    else s

/-- Forgets provisional columns. -/
def unrollProvisional : Scan Unit :=
  modify fun s => forget s.outer s
where
  forget : List OuterIndent → Scanner → Scanner
    | [], s => s
    | outer :: rest, s =>
      if outer.isOpen then s else forget rest { s with indent := outer.column, outer := rest }

/-! ## Brackets -/

/-- The nesting of brackets that is read. -/
def maxFlowLevel : Nat := 255

/-- Opens a flow collection, which has a pending key of its own. Their depth is bounded. -/
def enterFlow : Scan Unit := do
  if (← get).flowLevel = maxFlowLevel then fail .tooDeep
  modify fun s => { s with keys := PendingKey.none :: s.keys, flowLevel := s.flowLevel + 1 }

/-- Closes a flow collection with its pending key. -/
def leaveFlow : Scan Unit :=
  modify fun s =>
    if s.flowLevel > 0 then { s with keys := s.keys.drop 1, flowLevel := s.flowLevel - 1 } else s

/-- Ends the mapping without braces that is open in the innermost square bracket, if any. -/
def endPair : Scan Unit := do
  let s ← get
  match s.pairs with
  | true :: pairs =>
    set { s with flowMappingStarted := false, pairs := false :: pairs }
    push (Span.empty s.mark) .flowMappingEnd
  | _ => pure ()

end Scan

end YamlEdit
