import YamlEdit.Token.Scanner
import YamlEdit.Value.Source.Complaint
import YamlEdit.Value.Source.Readable

/-!
# The state of the scanner of values

As for documents, a token that may start a key is remembered until its `:` is met or can no longer
come, and tokens wait in a queue until nothing can be put in front of them.
-/

namespace YamlEdit.Value.Source

open Token (isBreakOrEnd)

/-- The line breaks of a value, among them three that are none in a document. -/
def isBreak (c : Char) : Bool :=
  c == '\n' || c == '\r' || c == '\u0085' || c == '\u2028' || c == '\u2029'

/-- A line ends with a break or with the text. -/
def isLineEnd (c : Char) : Bool := isBreak c || c == '\x00'

/-- The characters that separate tokens in a line. -/
def isBlank (c : Char) : Bool := c == ' ' || c == '\t'

/-- The characters that end a token. -/
def isGap (c : Char) : Bool := isBlank c || isLineEnd c

/-- How far the scanning of a text has got. -/
structure Scanner where
  /-- What is still to be read. -/
  rest : Text
  mark : Mark
  /-- Tokens that wait to be handed out, the first one first. -/
  queue : List (Located Token)
  /-- Number of tokens handed out. -/
  taken : Nat
  keyAllowed : Bool
  /-- The pending key of every open bracket and of the outside, innermost first. -/
  keys : List PendingKey
  indent : Int
  /-- The indents left behind, innermost first. -/
  outer : List Int
  flowLevel : Nat
  /-- More than the characters that are left. -/
  bound : Nat
  /-- The byte offset of a character that cannot be read and ends the text. -/
  illegal : Option Nat
  deriving Repr

/-- Nothing has been scanned; the start of the stream waits. -/
def Scanner.start (text : Readable) : Scanner where
  rest := text.text
  mark := Mark.origin
  queue := [⟨Span.empty Mark.origin, .streamStart⟩]
  taken := 0
  keyAllowed := true
  keys := [PendingKey.none]
  indent := -1
  outer := []
  flowLevel := 0
  bound := text.text.length + 1
  illegal := text.illegal

/-- Where a text ends that is cut off, the character behind it shows. -/
def Scanner.atIllegal? (s : Scanner) : Option Complaint :=
  if s.rest.isEmpty then s.illegal.map .unreadable else none

/-- A complaint at the end of a text that is cut off is about the character behind it. -/
def Scanner.orIllegal (s : Scanner) (c : Complaint) : Complaint :=
  match c, s.illegal with
  | .misplaced _ mark _, some offset =>
    if s.mark.index + Text.size s.rest ≤ mark.index then .unreadable offset else c
  | _, _ => c

/-- A step of scanning. -/
abbrev Scan := StateT Scanner (Except Complaint)

namespace Scan

/-- Complains at the place reached. -/
def fail {α : Type} (problem : Problem) : Scan α :=
  fun s => .error (.misplaced problem s.mark none)

/-- Complains at the place reached about something that started at `start`. -/
def failIn {α : Type} (activity : Activity) (start : Mark) (problem : Problem) : Scan α :=
  fun s => .error (.misplaced problem s.mark (some (activity, start)))

/-- The place of the next character. -/
def mark : Scan Mark := return (← get).mark

/-! ## Looking and moving -/

/-- The character after the given number of others, NUL behind the end. -/
def peekAt (n : Nat) : Scan Char := return (← get).rest.getD n '\x00'

/-- The next character, NUL behind the end. -/
def peek : Scan Char := return (← get).rest.headD '\x00'

/-- Fuel for a loop that moves on in every round. -/
def fuel : Scan Nat := return (← get).bound

/-- Steps over `n` characters of a line. -/
def skip (n : Nat) : Scan Unit :=
  modify fun s =>
    { s with
      rest := s.rest.drop n
      mark :=
        { s.mark with
          index := s.mark.index + Text.size (s.rest.take n)
          column := s.mark.column + n } }

/-- Reads a line break: what it stands for in a scalar. -/
def readBreak : Scan Text := do
  let c ← peek
  if !isBreak c then return []
  let count := if c = '\r' ∧ (← peekAt 1) = '\n' then 2 else 1
  modify fun s =>
    { s with
      rest := s.rest.drop count
      mark := ⟨s.mark.index + Text.size (s.rest.take count), s.mark.line + 1, 0⟩ }
  return if c = '\u2028' ∨ c = '\u2029' then [c] else ['\n']

/-- Takes the characters of the line that satisfy `p`, as far as they reach. -/
def takeLine (p : Char → Bool) : Scan Text := do
  let taken := (← get).rest.takeWhile p
  skip taken.length
  return taken

/-- Takes a comment, if there is one. -/
def skipComment : Scan Unit := do
  if (← peek) = '#' then
    let _ ← takeLine (!isLineEnd ·)

/-- Three `-` or `.` at the start of a line, and then white space. -/
def atDocumentMarker (c : Char) : Scan Bool := do
  let s ← get
  return s.mark.column == 0 && s.rest.take 3 == [c, c, c] && isGap (s.rest.getD 3 '\x00')

/-! ## The queue and the keys -/

/-- Adds a token behind those that wait. -/
def push (span : Span) (token : Token) : Scan Unit :=
  modify fun s => { s with queue := s.queue ++ [⟨span, token⟩] }

/-- Puts a token in front of token number `number`, which still waits. -/
def insertAt (number : Nat) (mark : Mark) (token : Token) : Scan Unit :=
  modify fun s =>
    let ahead := number - s.taken
    { s with queue := s.queue.take ahead ++ ⟨Span.empty mark, token⟩ :: s.queue.drop ahead }

/-- Says whether a key without a mark may start here. -/
def setKeyAllowed (allowed : Bool) : Scan Unit := modify fun s => { s with keyAllowed := allowed }

/-- Gives up the pending key. -/
def dropPendingKey : Scan Unit := do
  match (← get).keys with
  | [] => pure ()
  | pending :: outer =>
    if pending.possible && pending.required then
      failIn .scanKey pending.mark .expectedColon
    modify fun s => { s with keys := { pending with possible := false } :: outer }

/-- Remembers that the token that comes next may start a key. -/
def savePendingKey : Scan Unit := do
  let s ← get
  if s.keyAllowed then
    let required := s.flowLevel == 0 && s.indent == s.mark.column
    let pending : PendingKey := ⟨true, required, s.taken + s.queue.length, s.mark⟩
    dropPendingKey
    modify fun s => { s with keys := pending :: s.keys.drop 1 }

/-- A key lies on one line and has at most 1024 bytes. -/
def isStale (s : Scanner) (key : PendingKey) : Bool :=
  key.possible && (key.mark.line < s.mark.line || key.mark.index + 1024 < s.mark.index)

/-- Gives up the keys that can no longer be one, the outermost one first. -/
def dropStaleKeys : Scan Unit := do
  let s ← get
  match s.keys.reverse.find? fun key => isStale s key && key.required with
  | some key => failIn .scanKey key.mark .expectedColon
  | none =>
    set { s with
      keys := s.keys.map fun key => if isStale s key then { key with possible := false } else key }

/-! ## Indentation and brackets -/

/-- Opens `column` if it is deeper than the current one, with `token` in front of token number
`number`, or at the end of the queue. -/
def rollIndent (column : Nat) (number : Option Nat) (token : Token) (mark : Mark) : Scan Unit := do
  let s ← get
  if s.flowLevel = 0 ∧ s.indent < column then
    set { s with outer := s.indent :: s.outer, indent := column }
    match number with
    | some n => insertAt n mark token
    | none => push (Span.empty mark) token

/-- Closes the columns beyond `column`. -/
def unrollIndent (column : Int) : Scan Unit :=
  modify fun s => if s.flowLevel > 0 then s else closeBeyond s.outer s
where
  closeBeyond : List Int → Scanner → Scanner
    | [], s => s
    | outer :: rest, s =>
      if column < s.indent then
        closeBeyond rest
          { s with
            indent := outer
            outer := rest
            queue := s.queue ++ [⟨Span.empty s.mark, .blockEnd⟩] }
      else s

/-- Opens a flow collection, which has a pending key of its own. -/
def enterFlow : Scan Unit :=
  modify fun s => { s with keys := PendingKey.none :: s.keys, flowLevel := s.flowLevel + 1 }

/-- Closes a flow collection with its pending key. -/
def leaveFlow : Scan Unit :=
  modify fun s =>
    if s.flowLevel > 0 then { s with keys := s.keys.drop 1, flowLevel := s.flowLevel - 1 } else s

end Scan

end YamlEdit.Value.Source
