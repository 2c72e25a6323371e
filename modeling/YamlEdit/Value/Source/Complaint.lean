import YamlEdit.Token.Basic

/-!
# Complaints about the text of a value

The text of a value is read by rules that are stricter than those of a document. A complaint says
what is wrong and where, and often what was being read and where that started.
-/

namespace YamlEdit.Value.Source

/-- What is wrong with a text. -/
inductive Problem where
  | expectedColon
  | cannotStartToken
  | entryNotAllowed
  | keyNotAllowed
  | valueNotAllowed
  | unknownDirective
  | expectedLineEnd
  | expectedDirectiveName
  | directiveCharacter
  | versionDot
  | versionTooLong
  | versionNumber
  | expectedBlank
  | expectedGap
  | anchorName
  | verbatimTagEnd
  | expectedBang
  | tagUri
  | escapedOctet
  | leadingOctet
  | trailingOctet
  | zeroIndent
  | tabAsIndent
  | documentIndicator
  | endOfText
  | unknownEscape
  | hexNumber
  | escapeCode
  | unexpectedColon
  | tabInIndent
  | expectedDocumentStart
  | duplicateVersion
  | incompatibleVersion
  | duplicateHandle
  | undefinedHandle
  | expectedContent
  | expectedDash
  | expectedKey
  | expectedCommaOrBracket
  | expectedCommaOrBrace
  deriving DecidableEq, Repr

/-- A problem in words. -/
def Problem.message : Problem → Text
  | expectedColon => "could not find expected ':'".toList
  | cannotStartToken => "found character that cannot start any token".toList
  | entryNotAllowed => "block sequence entries are not allowed in this context".toList
  | keyNotAllowed => "mapping keys are not allowed in this context".toList
  | valueNotAllowed => "mapping values are not allowed in this context".toList
  | unknownDirective => "found unknown directive name".toList
  | expectedLineEnd => "did not find expected comment or line break".toList
  | expectedDirectiveName => "could not find expected directive name".toList
  | directiveCharacter => "found unexpected non-alphabetical character".toList
  | versionDot => "did not find expected digit or '.' character".toList
  | versionTooLong => "found extremely long version number".toList
  | versionNumber => "did not find expected version number".toList
  | expectedBlank => "did not find expected whitespace".toList
  | expectedGap => "did not find expected whitespace or line break".toList
  | anchorName => "did not find expected alphabetic or numeric character".toList
  | verbatimTagEnd => "did not find the expected '>'".toList
  | expectedBang => "did not find expected '!'".toList
  | tagUri => "did not find expected tag URI".toList
  | escapedOctet => "did not find URI escaped octet".toList
  | leadingOctet => "found an incorrect leading UTF-8 octet".toList
  | trailingOctet => "found an incorrect trailing UTF-8 octet".toList
  | zeroIndent => "found an indentation indicator equal to 0".toList
  | tabAsIndent => "found a tab character where an indentation space is expected".toList
  | documentIndicator => "found unexpected document indicator".toList
  | endOfText => "found unexpected end of stream".toList
  | unknownEscape => "found unknown escape character".toList
  | hexNumber => "did not find expected hexadecimal number".toList
  | escapeCode => "found invalid Unicode character escape code".toList
  | unexpectedColon => "found unexpected ':'".toList
  | tabInIndent => "found a tab character that violates indentation".toList
  | expectedDocumentStart => "did not find expected <document start>".toList
  | duplicateVersion => "found duplicate %YAML directive".toList
  | incompatibleVersion => "found incompatible YAML document".toList
  | duplicateHandle => "found duplicate %TAG directive".toList
  | undefinedHandle => "found undefined tag handle".toList
  | expectedContent => "did not find expected node content".toList
  | expectedDash => "did not find expected '-' indicator".toList
  | expectedKey => "did not find expected key".toList
  | expectedCommaOrBracket => "did not find expected ',' or ']'".toList
  | expectedCommaOrBrace => "did not find expected ',' or '\x7d'".toList

/-- What was being read. -/
inductive Activity where
  | scanKey
  | scanToken
  | scanDirective
  | scanVersion
  | scanTagDirective
  | scanDirectiveHandle
  | parseDirectiveHandle
  | parseTagDirective
  | scanAnchor
  | scanAlias
  | scanTag
  | parseTag
  | scanBlock
  | scanQuoted
  | parseEscape
  | scanPlain
  | parseNode
  | parseBlockNode
  | parseFlowNode
  | parseBlockSequence
  | parseBlockMapping
  | parseFlowSequence
  | parseFlowMapping
  deriving DecidableEq, Repr

/-- An activity in words. -/
def Activity.message : Activity → Text
  | scanKey => "while scanning a simple key".toList
  | scanToken => "while scanning for the next token".toList
  | scanDirective => "while scanning a directive".toList
  | scanVersion => "while scanning a %YAML directive".toList
  | scanTagDirective => "while scanning a %TAG directive".toList
  | scanDirectiveHandle => "while scanning a tag directive".toList
  | parseDirectiveHandle => "while parsing a tag directive".toList
  | parseTagDirective => "while parsing a %TAG directive".toList
  | scanAnchor => "while scanning an anchor".toList
  | scanAlias => "while scanning an alias".toList
  | scanTag => "while scanning a tag".toList
  | parseTag => "while parsing a tag".toList
  | scanBlock => "while scanning a block scalar".toList
  | scanQuoted => "while scanning a quoted scalar".toList
  | parseEscape => "while parsing a quoted scalar".toList
  | scanPlain => "while scanning a plain scalar".toList
  | parseNode => "while parsing a node".toList
  | parseBlockNode => "while parsing a block node".toList
  | parseFlowNode => "while parsing a flow node".toList
  | parseBlockSequence => "while parsing a block collection".toList
  | parseBlockMapping => "while parsing a block mapping".toList
  | parseFlowSequence => "while parsing a flow sequence".toList
  | parseFlowMapping => "while parsing a flow mapping".toList

/-- What is wrong with a text, and where. -/
inductive Complaint where
  /-- A problem, its place, and what was being read there, with the place where that started. -/
  | misplaced (problem : Problem) (mark : Mark) (during : Option (Activity × Mark))
  /-- A character that no text may hold, given by its byte offset. -/
  | unreadable (offset : Nat)
  deriving DecidableEq, Repr

/-- Line and column counted from one. -/
def markText (m : Mark) : Text :=
  "line ".toList ++ Text.ofNat m.line ++ " column ".toList ++ Text.ofNat (m.column + 1)

/-- Where a mark is. The start of a text is not mentioned. -/
def atMark (m : Mark) : Text :=
  if m.line = 1 ∧ m.column = 0 then [] else " at ".toList ++ markText m

/-- A complaint in words. The place where the activity started is given if it is another one. -/
def Complaint.message : Complaint → Text
  | misplaced problem mark during =>
    problem.message ++ atMark mark ++
      match during with
      | none => []
      | some (activity, start) =>
        ", ".toList ++ activity.message ++
          if start.line = mark.line ∧ start.column = mark.column then [] else atMark start
  | unreadable offset =>
    "control characters are not allowed".toList ++
      if offset = 0 then [] else " at position ".toList ++ Text.ofNat offset

end YamlEdit.Value.Source
