import YamlEdit.Value.Source.Stream

/-!
# The events of a value

The first document of a text as the sequence of its openings, closings and leaves. A complaint
does not undo the events in front of it.
-/

namespace YamlEdit.Value.Source

/-- The anchor and the tag of a node. -/
structure Properties where
  anchor : Option Text
  tag : Option Text
  deriving DecidableEq, Repr

/-- Neither a tag nor an anchor. -/
def Properties.none : Properties := ⟨.none, .none⟩

/-- What the tokens of a text say, in its order. -/
inductive Event where
  | scalar (text : Text) (isPlain : Bool) (properties : Properties)
  | sequenceStart (properties : Properties)
  | sequenceEnd
  | mappingStart (properties : Properties)
  | mappingEnd
  | aliasTo (name : Text)
  deriving DecidableEq, Repr

/-- The first document of a text. -/
structure Document where
  /-- The events and where they start; none of an empty text. -/
  events : List (Event × Mark)
  /-- The complaint behind the events. -/
  complaint : Option Complaint
  /-- Whether the text ends with the document. -/
  isLast : Bool
  deriving Repr

/-- How far the reading of tokens has got. -/
structure Parser where
  tokens : List (Located Token)
  complaint : Option Complaint
  /-- The tag handles that are declared, and what they stand for. -/
  handles : List (Text × Text)
  /-- The events so far, the last one first. -/
  events : List (Event × Mark)
  deriving Repr

/-- A step of reading tokens. The events before a complaint count. -/
abbrev Parse := ExceptT Complaint (StateM Parser)

namespace Parse

/-- Complains about a token at `mark`. -/
def fail {α : Type} (problem : Problem) (mark : Mark) : Parse α :=
  throw (.misplaced problem mark none)

/-- Complains about a token at `mark`, inside of something that started at `start`. -/
def failIn {α : Type} (activity : Activity) (start : Mark) (problem : Problem) (mark : Mark) :
    Parse α :=
  throw (.misplaced problem mark (some (activity, start)))

/-- The next token. A complaint of the scanner shows when the tokens in front of it are used
up. -/
def peek : Parse (Located Token) := do
  let s ← get
  match s.tokens, s.complaint with
  | token :: _, _ => return token
  | [], some c => throw c
  | [], none => return ⟨Span.empty Mark.origin, .streamEnd⟩

/-- Takes a token. -/
def skip : Parse Unit := modify fun s => { s with tokens := s.tokens.drop 1 }

/-- Adds an event. -/
def emit (event : Event) (mark : Mark) : Parse Unit :=
  modify fun s => { s with events := (event, mark) :: s.events }

/-- A value that is not written. -/
def emitMissing (mark : Mark) : Parse Unit := emit (.scalar [] true Properties.none) mark

/-! ## Properties -/

/-- The tag that is written with a handle, in a node that starts at `start`. -/
def tagOf (start mark : Mark) (handle rest : Text) : Parse Text := do
  if handle.isEmpty then return rest
  match (← get).handles.lookup handle with
  | some meaning => return meaning ++ rest
  | none => failIn .parseNode start .undefinedHandle mark

/-- The tag that comes next, if one does: its mark, its handle and its rest. -/
def tag? : Parse (Option (Mark × Text × Text)) := do
  let token ← peek
  match token.item with
  | .tag handle rest =>
    skip
    return some (token.span.start, handle, rest)
  | _ => return none

/-- The anchor that comes next, if one does. -/
def anchor? : Parse (Option Text) := do
  match (← peek).item with
  | .anchor name =>
    skip
    return some name
  | _ => return none

/-- The properties of a node, in either order. -/
def properties : Parse Properties := do
  let start := (← peek).span.start
  let first ← anchor?
  let tag ← tag?
  let anchor ← if first.isNone ∧ tag.isSome then anchor? else pure first
  match tag with
  | none => return ⟨anchor, none⟩
  | some (mark, handle, rest) =>
    let _ ← peek
    return ⟨anchor, some (← tagOf start mark handle rest)⟩

/-! ## Nodes -/

mutual

/-- A node. One of a block collection can be a block collection itself, and one of a block mapping
a sequence at the column of its key. -/
def node (fuel : Nat) (block indentless : Bool) : Parse Unit := do
  match fuel with
  | 0 => return
  | fuel + 1 =>
    let first ← peek
    let start := first.span.start
    match first.item with
    | .aliasTo name =>
      skip
      emit (.aliasTo name) start
    | _ =>
      let p ← properties
      let token ← peek
      match token.item, block, indentless with
      | .blockEntry, _, true =>
        emit (.sequenceStart p) start
        indentlessItems fuel
      | .scalar style text, _, _ =>
        skip
        emit (.scalar text (style == .plain) p) start
      | .flowSequenceStart, _, _ =>
        skip
        emit (.sequenceStart p) start
        flowItems fuel token.span.start true
      | .flowMappingStart, _, _ =>
        skip
        emit (.mappingStart p) start
        flowEntries fuel token.span.start true
      | .blockSequenceStart, true, _ =>
        skip
        emit (.sequenceStart p) start
        blockItems fuel token.span.start
      | .blockMappingStart, true, _ =>
        skip
        emit (.mappingStart p) start
        blockEntries fuel token.span.start
      | _, _, _ =>
        if p = Properties.none then
          failIn (if block then .parseBlockNode else .parseFlowNode) start .expectedContent
            token.span.start
        else emit (.scalar [] true p) start

/-- The items of a block sequence that started at `start`. -/
def blockItems (fuel : Nat) (start : Mark) : Parse Unit := do
  match fuel with
  | 0 => return
  | fuel + 1 =>
    let token ← peek
    match token.item with
    | .blockEntry =>
      skip
      match (← peek).item with
      | .blockEntry | .blockEnd => emitMissing token.span.stop
      | _ => node fuel true false
      blockItems fuel start
    | .blockEnd =>
      skip
      emit .sequenceEnd token.span.start
    | _ => failIn .parseBlockSequence start .expectedDash token.span.start

/-- The items of a sequence at the column of its key. -/
def indentlessItems (fuel : Nat) : Parse Unit := do
  match fuel with
  | 0 => return
  | fuel + 1 =>
    let token ← peek
    match token.item with
    | .blockEntry =>
      skip
      match (← peek).item with
      | .blockEntry | .key | .value | .blockEnd => emitMissing token.span.stop
      | _ => node fuel true false
      indentlessItems fuel
    | _ => emit .sequenceEnd token.span.start

/-- The entries of a block mapping that started at `start`. -/
def blockEntries (fuel : Nat) (start : Mark) : Parse Unit := do
  match fuel with
  | 0 => return
  | fuel + 1 =>
    let token ← peek
    match token.item with
    | .key =>
      skip
      match (← peek).item with
      | .key | .value | .blockEnd => emitMissing token.span.stop
      | _ => node fuel true true
      let token ← peek
      match token.item with
      | .value =>
        skip
        match (← peek).item with
        | .key | .value | .blockEnd => emitMissing token.span.stop
        | _ => node fuel true true
      | _ => emitMissing token.span.start
      blockEntries fuel start
    | .blockEnd =>
      skip
      emit .mappingEnd token.span.start
    | _ => failIn .parseBlockMapping start .expectedKey token.span.start

/-- The items of a flow sequence that started at `start`; `first` is true before the first one. -/
def flowItems (fuel : Nat) (start : Mark) (first : Bool) : Parse Unit := do
  match fuel with
  | 0 => return
  | fuel + 1 =>
    let token ← peek
    if token.item ≠ .flowSequenceEnd ∧ !first then
      if token.item = .flowEntry then skip
      else failIn .parseFlowSequence start .expectedCommaOrBracket token.span.start
    let token ← peek
    match token.item with
    | .flowSequenceEnd =>
      skip
      emit .sequenceEnd token.span.start
    | .key =>
      skip
      emit (.mappingStart Properties.none) token.span.start
      pair fuel
      flowItems fuel start false
    | _ =>
      node fuel false false
      flowItems fuel start false

/-- A mapping of one entry without braces, after its key indicator. -/
def pair (fuel : Nat) : Parse Unit := do
  match fuel with
  | 0 => return
  | fuel + 1 =>
    let token ← peek
    match token.item with
    | .value | .flowEntry | .flowSequenceEnd =>
      skip
      emitMissing token.span.stop
    | _ => node fuel false false
    let token ← peek
    match token.item with
    | .value =>
      skip
      let next ← peek
      match next.item with
      | .flowEntry | .flowSequenceEnd => emitMissing next.span.start
      | _ => node fuel false false
    | _ => emitMissing token.span.start
    emit .mappingEnd (← peek).span.start

/-- The entries of a flow mapping that started at `start`. -/
def flowEntries (fuel : Nat) (start : Mark) (first : Bool) : Parse Unit := do
  match fuel with
  | 0 => return
  | fuel + 1 =>
    let token ← peek
    if token.item ≠ .flowMappingEnd ∧ !first then
      if token.item = .flowEntry then skip
      else failIn .parseFlowMapping start .expectedCommaOrBrace token.span.start
    let token ← peek
    match token.item with
    | .flowMappingEnd =>
      skip
      emit .mappingEnd token.span.start
    | .key =>
      skip
      let next ← peek
      match next.item with
      | .value | .flowEntry | .flowMappingEnd => emitMissing next.span.start
      | _ => node fuel false false
      let token ← peek
      match token.item with
      | .value =>
        skip
        let next ← peek
        match next.item with
        | .flowEntry | .flowMappingEnd => emitMissing next.span.start
        | _ => node fuel false false
      | _ => emitMissing token.span.start
      flowEntries fuel start false
    | _ =>
      node fuel false false
      emitMissing (← peek).span.start
      flowEntries fuel start false

end

/-! ## Documents -/

/-- More than the steps that the tokens left can take. -/
def fuel : Parse Nat := return 3 * (← get).tokens.length + 8

/-- The handles that need no declaration. -/
def defaultHandles : List (Text × Text) :=
  [(['!'], ['!']), (['!', '!'], "tag:yaml.org,2002:".toList)]

/-- Reads the directives of a document. -/
def directives : (fuel : Nat) → (versioned : Bool) → Parse Unit
  | 0, _ => pure ()
  | fuel + 1, versioned => do
    let token ← peek
    match token.item with
    | .versionDirective major minor =>
      if versioned then fail .duplicateVersion token.span.start
      if major ≠ 1 ∨ (minor ≠ 1 ∧ minor ≠ 2) then fail .incompatibleVersion token.span.start
      skip
      directives fuel true
    | .tagDirective handle meaning =>
      let handles := (← get).handles
      if (handles.lookup handle).isSome then fail .duplicateHandle token.span.start
      modify fun s => { s with handles := handles ++ [(handle, meaning)] }
      skip
      directives fuel versioned
    | _ => modify fun s => { s with handles := s.handles ++ defaultHandles }

/-- Whether the token is the first one of a document that is marked. -/
def startsMarked : Token → Bool
  | .versionDirective _ _ | .tagDirective _ _ | .documentStart => true
  | _ => false

/-- The content of a document after its marker. -/
def content : Parse Unit := do
  let token ← peek
  if startsMarked token.item ∨ token.item = .documentEnd ∨ token.item = .streamEnd then
    emitMissing token.span.start
  else node (← fuel) true false

/-- Reads the first document, and the marker that may end it. -/
def document : Parse Unit := do
  skip
  let token ← peek
  if token.item = .streamEnd then return
  directives (← fuel) false
  if startsMarked token.item then
    let token ← peek
    if token.item ≠ .documentStart then fail .expectedDocumentStart token.span.start
    skip
    content
  else node (← fuel) true false
  if (← peek).item = .documentEnd then skip

/-- Whether nothing but markers that end a document is left. -/
def isAtEnd : (fuel : Nat) → Parse Bool
  | 0 => pure false
  | fuel + 1 => do
    match (← peek).item with
    | .documentEnd =>
      skip
      isAtEnd fuel
    | .streamEnd => return true
    | _ => return false

end Parse

/-- The first document of a text. -/
def parse (text : Text) : Document :=
  let stream := scan text
  let (result, s) := Parse.document.run.run ⟨stream.tokens, stream.complaint, [], []⟩
  let events := s.events.reverse
  match result with
  | .error c => ⟨events, some c, true⟩
  | .ok () =>
    let (rest, _) := (Parse.isAtEnd (stream.tokens.length + 1)).run.run s
    ⟨events, none, match rest with
      | .ok atEnd => atEnd
      | .error _ => false⟩

end YamlEdit.Value.Source
