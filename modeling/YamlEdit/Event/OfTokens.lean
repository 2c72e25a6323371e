import YamlEdit.Event.Basic
import YamlEdit.Token.Stream

/-!
# The events of a document

A machine reads the tokens and yields one event a step. What it still has to do is a stack of
`Task`s; the task on top says what may come next.
-/

namespace YamlEdit

/-- What is to be read next. -/
inductive Task where
  | stream
  /-- A document that needs no marker to start it. -/
  | implicitDocument
  /-- A document that needs one. -/
  | markedDocument
  | documentContent
  | documentEnd
  | blockNode
  | blockSequenceFirst
  | blockSequenceNext
  | indentlessNext
  | blockMappingFirst
  | blockMappingKey
  | blockMappingValue
  | flowSequenceFirst
  | flowSequenceNext
  | pairKey
  | pairValue
  | pairEnd
  | flowMappingFirst
  | flowMappingKey
  | flowMappingValue
  | flowMappingEmptyValue
  deriving DecidableEq, Repr

/-- What the tokens read so far say about those to come. -/
structure EventReader where
  tokens : List (Located Token)
  fault : Option SyntaxError
  tasks : List Task
  /-- The anchors of the stream, the latest one first. -/
  anchors : List (Text × Nat)
  anchorCount : Nat
  /-- The tag handles that the document declares. -/
  handles : List Text
  deriving Repr

namespace EventReader

/-- A step of reading tokens. -/
abbrev Step := StateT EventReader (Except SyntaxError)

/-- A fault at the given place. -/
def fail {α : Type} (mark : Mark) (fault : SyntaxFault) : Step α := fun _ => .error ⟨mark, fault⟩

/-- The next token. A fault of the text shows when the tokens in front of it are used up. -/
def peek : Step (Located Token) := fun s =>
  match s.tokens, s.fault with
  | token :: _, _ => .ok (token, s)
  | [], some e => .error e
  | [], none => .ok (⟨Span.empty Mark.origin, .streamEnd⟩, s)

/-- Takes a token. -/
def skip : Step Unit := modify fun s => { s with tokens := s.tokens.drop 1 }

/-- Does nothing more for the task on top. -/
def done : Step Unit := modify fun s => { s with tasks := s.tasks.drop 1 }

/-- Goes on with `task` instead of the one on top. -/
def become (task : Task) : Step Unit := modify fun s => { s with tasks := task :: s.tasks.drop 1 }

/-- Numbers a new anchor. -/
def register (name : Text) : Step Nat := do
  let n := (← get).anchorCount + 1
  modify fun s => { s with anchors := (name, n) :: s.anchors, anchorCount := n }
  return n

/-- Checks that the handle of a tag at `mark` is declared. -/
def checkHandle (mark : Mark) (handle : Text) : Step Unit := do
  if handle ≠ "!!".toList ∧ Token.isFullHandle handle ∧ !(← get).handles.contains handle then
    fail mark .undeclaredHandle

/-- The properties of a node: the number of its anchor, and whether it has any. -/
def properties : Step (Nat × Bool) := do
  let token ← peek
  match token.item with
  | .anchor name =>
    skip
    let anchor ← register name
    match (← peek).item with
    | .tag handle _ =>
      skip
      checkHandle token.span.start handle
    | _ => pure ()
    return (anchor, true)
  | .tag handle _ =>
    skip
    checkHandle token.span.start handle
    match (← peek).item with
    | .anchor name =>
      skip
      return (← register name, true)
    | _ => return (0, true)
  | _ => return (0, false)

/-- An event and where it stands. -/
abbrev Yield := Event × Span

/-- Starts a node in place of the task on top. -/
def node (block indentless : Bool) : Step Yield := do
  let token ← peek
  match token.item with
  | .aliasTo name =>
    skip
    match (← get).anchors.lookup name with
    | none => fail token.span.start .unknownAnchor
    | some n =>
      done
      return (.aliasTo n, token.span)
  | _ =>
    let (anchor, marked) ← properties
    let token ← peek
    match token.item, block, indentless with
    | .blockEntry, _, true =>
      become .indentlessNext
      return (.sequenceStart anchor, token.span)
    | .scalar style text, _, _ =>
      done
      skip
      return (.scalar text style anchor, token.span)
    | .flowSequenceStart, _, _ =>
      become .flowSequenceFirst
      return (.sequenceStart anchor, token.span)
    | .flowMappingStart, _, _ =>
      become .flowMappingFirst
      return (.mappingStart anchor, token.span)
    | .blockSequenceStart, true, _ =>
      become .blockSequenceFirst
      return (.sequenceStart anchor, token.span)
    | .blockMappingStart, true, _ =>
      become .blockMappingFirst
      return (.mappingStart anchor, token.span)
    | _, _, _ =>
      if marked then
        done
        return (.scalar [] .plain anchor, token.span)
      else fail token.span.start .expectedNode

/-- Goes on with `task`, and with a node in front of it. -/
def nodeThen (task : Task) (block indentless : Bool) : Step Yield := do
  modify fun s => { s with tasks := .blockNode :: task :: s.tasks.drop 1 }
  node block indentless

/-- A missing value at `span`; `task` comes next. -/
def missingThen (task : Task) (span : Span) : Step Yield := do
  become task
  return (.missing, span)

/-! ## Documents -/

/-- Reads the directives of a document. Each one replaces the handles declared before it. -/
def directives : (fuel : Nat) → (versioned : Bool) → Step Unit
  | 0, _ => pure ()
  | fuel + 1, versioned => do
    let token ← peek
    match token.item with
    | .versionDirective _ _ =>
      if versioned then fail token.span.start .duplicateVersion
      modify fun s => { s with handles := [] }
      skip
      directives fuel true
    | .tagDirective handle _ =>
      modify fun s => { s with handles := [handle] }
      skip
      directives fuel versioned
    | _ => pure ()

/-- More than the steps that the tokens left can take. -/
def fuel : Step Nat := return (← get).tokens.length + 1

/-- Skips the markers that end a document which has ended already. -/
def skipDocumentEnds : (fuel : Nat) → Step Unit
  | 0 => pure ()
  | fuel + 1 => do
    if (← peek).item = .documentEnd then
      skip
      skipDocumentEnds fuel

/-- A document with its directives and its mark. -/
def markedDocument : Step Yield := do
  directives (← fuel) false
  let token ← peek
  if token.item = .documentStart then
    modify fun s => { s with tasks := .documentContent :: .documentEnd :: s.tasks.drop 1 }
    skip
    return (.documentStart, token.span)
  else fail token.span.start .expectedDocumentStart

/-- The next document, or the end of the stream. Only the first one may go without a mark. -/
def document (implicit : Bool) : Step Yield := do
  skipDocumentEnds (← fuel)
  let token ← peek
  match token.item with
  | .streamEnd =>
    done
    skip
    return (.streamEnd, token.span)
  | .versionDirective _ _ | .tagDirective _ _ | .documentStart => markedDocument
  | _ =>
    if implicit then
      directives (← fuel) false
      modify fun s => { s with tasks := .blockNode :: .documentEnd :: s.tasks.drop 1 }
      return (.documentStart, token.span)
    else markedDocument

/-- What a document holds, which may be nothing. -/
def documentContent : Step Yield := do
  let token ← peek
  match token.item with
  | .versionDirective _ _ | .tagDirective _ _ | .documentStart | .documentEnd | .streamEnd =>
    done
    return (.missing, token.span)
  | _ => node true false

/-- The end of a document, with or without a mark. -/
def documentEnd : Step Yield := do
  let token ← peek
  modify fun s => { s with handles := [] }
  match token.item with
  | .documentEnd =>
    skip
    become .implicitDocument
    return (.documentEnd, token.span)
  | .versionDirective _ _ | .tagDirective _ _ => fail token.span.start .directiveInDocument
  | _ =>
    become .markedDocument
    return (.documentEnd, token.span)

/-! ## Block collections -/

/-- The next item of a block sequence, or its end. -/
def blockSequence (first : Bool) : Step Yield := do
  if first then skip
  let token ← peek
  match token.item with
  | .blockEnd =>
    done
    skip
    return (.sequenceEnd, token.span)
  | .blockEntry =>
    skip
    let next ← peek
    match next.item with
    | .blockEntry | .blockEnd => missingThen .blockSequenceNext token.span
    | _ => nodeThen .blockSequenceNext true false
  | _ => fail token.span.start .expectedDash

/-- The items of a sequence that stand at the column of its key. -/
def indentlessSequence : Step Yield := do
  let token ← peek
  match token.item with
  | .blockEntry =>
    skip
    let next ← peek
    match next.item with
    | .blockEntry | .key | .value | .blockEnd => missingThen .indentlessNext token.span
    | _ => nodeThen .indentlessNext true false
  | _ =>
    done
    return (.sequenceEnd, token.span)

/-- The next key of a block mapping, or its end. -/
def blockMappingKey (first : Bool) : Step Yield := do
  if first then skip
  let token ← peek
  match token.item with
  | .key =>
    skip
    let next ← peek
    match next.item with
    | .key | .value | .blockEnd => missingThen .blockMappingValue next.span
    | _ => nodeThen .blockMappingValue true true
  | .value => missingThen .blockMappingValue token.span
  | .blockEnd =>
    done
    skip
    return (.mappingEnd, token.span)
  | _ => fail token.span.start .expectedKey

/-- The value behind a key of a block mapping, which may be missing. -/
def blockMappingValue : Step Yield := do
  let token ← peek
  match token.item with
  | .value =>
    skip
    let next ← peek
    match next.item with
    | .key | .value | .blockEnd => missingThen .blockMappingKey token.span
    | _ => nodeThen .blockMappingKey true true
  | _ => missingThen .blockMappingKey token.span

/-! ## Flow collections -/

/-- The end of a sequence. -/
def closeSequence (span : Span) : Step Yield := do
  done
  skip
  return (.sequenceEnd, span)

/-- What may stand behind a comma of a flow sequence. A key starts a mapping of one entry. -/
def flowItem : Step Yield := do
  let token ← peek
  match token.item with
  | .flowSequenceEnd => closeSequence token.span
  | .key =>
    modify fun s => { s with tasks := .pairKey :: .flowSequenceNext :: s.tasks.drop 1 }
    skip
    return (.mappingStart 0, token.span)
  | _ => nodeThen .flowSequenceNext false false

/-- The next item of a flow sequence, or its end. -/
def flowSequence (first : Bool) : Step Yield := do
  if first then skip
  let token ← peek
  if token.item = .flowSequenceEnd then closeSequence token.span
  else if first then flowItem
  else if token.item = .flowEntry then
    skip
    flowItem
  else fail token.span.start .expectedFlowSequenceEnd

/-- The key of a mapping of one entry among the items of a flow sequence. -/
def pairKey : Step Yield := do
  let token ← peek
  match token.item with
  | .value | .flowEntry | .flowSequenceEnd =>
    skip
    missingThen .pairValue token.span
  | _ => nodeThen .pairValue false false

/-- The value of a mapping of one entry, which may be missing. -/
def pairValue : Step Yield := do
  let token ← peek
  match token.item with
  | .value =>
    skip
    let next ← peek
    match next.item with
    | .flowEntry | .flowSequenceEnd => missingThen .pairEnd next.span
    | _ => nodeThen .pairEnd false false
  | _ => missingThen .pairEnd token.span

/-- The end of a mapping of one entry, which no token marks. -/
def pairEnd : Step Yield := do
  let token ← peek
  done
  return (.mappingEnd, token.span)

/-- The end of a mapping. -/
def closeMapping (span : Span) : Step Yield := do
  done
  skip
  return (.mappingEnd, span)

/-- What may stand behind a comma of a flow mapping. The comma stands at `comma`. -/
def flowPair (comma : Span) : Step Yield := do
  let next ← peek
  match next.item with
  | .key =>
    skip
    let token ← peek
    match token.item with
    | .value | .flowEntry | .flowMappingEnd => missingThen .flowMappingValue token.span
    | _ => nodeThen .flowMappingValue false false
  | .value => missingThen .flowMappingValue next.span
  | .flowMappingEnd => closeMapping comma
  | _ => nodeThen .flowMappingEmptyValue false false

/-- The next key of a flow mapping, or its end. -/
def flowMappingKey (first : Bool) : Step Yield := do
  if first then skip
  let token ← peek
  if token.item = .flowMappingEnd then closeMapping token.span
  else if first then flowPair token.span
  else if token.item = .flowEntry then
    skip
    flowPair token.span
  else fail token.span.start .expectedFlowMappingEnd

/-- The value behind a key of a flow mapping, which may be missing. -/
def flowMappingValue (empty : Bool) : Step Yield := do
  let token ← peek
  if empty then missingThen .flowMappingKey token.span
  else if token.item = .value then
    skip
    match (← peek).item with
    | .flowEntry | .flowMappingEnd => missingThen .flowMappingKey token.span
    | _ => nodeThen .flowMappingKey false false
  else missingThen .flowMappingKey token.span

/-! ## The machine -/

/-- The start of the stream. -/
def streamStart : Step Yield := do
  let token ← peek
  skip
  become .implicitDocument
  return (.streamStart, token.span)

/-- The event that a task leads to. -/
def step : Task → Step Yield
  | .stream => streamStart
  | .implicitDocument => document true
  | .markedDocument => document false
  | .documentContent => documentContent
  | .documentEnd => documentEnd
  | .blockNode => node true false
  | .blockSequenceFirst => blockSequence true
  | .blockSequenceNext => blockSequence false
  | .indentlessNext => indentlessSequence
  | .blockMappingFirst => blockMappingKey true
  | .blockMappingKey => blockMappingKey false
  | .blockMappingValue => blockMappingValue
  | .flowSequenceFirst => flowSequence true
  | .flowSequenceNext => flowSequence false
  | .pairKey => pairKey
  | .pairValue => pairValue
  | .pairEnd => pairEnd
  | .flowMappingFirst => flowMappingKey true
  | .flowMappingKey => flowMappingKey false
  | .flowMappingValue => flowMappingValue false
  | .flowMappingEmptyValue => flowMappingValue true

/-- Runs the machine until nothing is left to do. -/
def run : (fuel : Nat) → EventReader → (read : List Yield) → Except SyntaxError (List Yield)
  | 0, _, read => .ok read.reverse
  | fuel + 1, s, read =>
    match s.tasks with
    | [] => .ok read.reverse
    | task :: _ => do
      let (event, s) ← (step task).run s
      run fuel s (event :: read)

end EventReader

/-- The events of the tokens of a document. No token takes part in more than four events. -/
def Event.ofTokens (stream : TokenStream) : Except SyntaxError (List (Event × Span)) :=
  EventReader.run (4 * stream.tokens.length + 8)
    { tokens := stream.tokens
      fault := stream.fault
      tasks := [.stream]
      anchors := []
      anchorCount := 0
      handles := [] }
    []

/-- The events of a document. -/
def Event.ofDocument (document : Text) : Except SyntaxError (List (Event × Span)) :=
  Event.ofTokens (Token.scan document)

end YamlEdit
