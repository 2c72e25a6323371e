import YamlEdit.Token.Property

/-!
# The token stream

`Token.scan` lists the tokens of a document. If the text is at fault, the list holds the tokens
that could be handed out before the fault was met, and the fault stands behind them: whoever reads
the tokens notices it when the list is used up, and not earlier.
-/

namespace YamlEdit

namespace Scan

open Token

/-! ## Between tokens -/

/-- Steps over white space, line breaks and comments. -/
def skipToToken : (fuel : Nat) → Scan Unit
  | 0 => pure ()
  | fuel + 1 => do
    let s ← get
    let c ← peek
    if c = '\t' ∧ !s.outer.isEmpty ∧ s.leading ∧ s.mark.column < s.indent then
      let _ ← skipToLineEnd true
      if !isBreakOrEnd (← peek) then fail .tabInBlockIndentation
      skipToToken fuel
    else if isSpace c then
      skipSpace
      skipToToken fuel
    else if isBreak c then
      skipBreak
      if s.flowLevel = 0 then allowKey
      skipToToken fuel
    else if c = '#' then
      skipComment
      skipToToken fuel
    else return

/-- Steps over what may stand between a `?` and the key: anything but tabs, and something. -/
def skipAfterKeyIndicator : (fuel : Nat) → (found : Bool) → Scan Unit
  | 0, _ => pure ()
  | fuel + 1, found => do
    let c ← peek
    if c = ' ' then
      skipSpace
      skipAfterKeyIndicator fuel true
    else if isBreak c then
      skipBreak
      if (← get).flowLevel = 0 then allowKey
      skipAfterKeyIndicator fuel true
    else if c = '#' then
      skipComment
      skipAfterKeyIndicator fuel found
    else if !found then fail .expectedSpace

/-! ## One token after the other -/

/-- Remembers a possible key, and that none may start right after it. -/
def startsKey : Scan Unit := do
  savePendingKey
  forbidKey

/-- Adds a token that has been scanned. -/
def enqueue (token : Located Token) : Scan Unit := push token.span token.item

/-- The end of the text closes all blocks. A key that was required may not be left pending. -/
def fetchStreamEnd : Scan Unit := do
  modify fun s =>
    if s.mark.column = 0 then s
    else { s with mark := { s.mark with line := s.mark.line + 1, column := 0 } }
  if (← get).keys.any fun key => key.required && key.possible then fail .simpleKeyExpected
  modify fun s => { s with keys := s.keys.map fun key => { key with possible := false } }
  unrollIndent (-1)
  forbidKey
  push (Span.empty (← mark)) .streamEnd

/-- A directive closes all blocks. -/
def fetchDirective : Scan Unit := do
  unrollIndent (-1)
  dropPendingKey
  forbidKey
  enqueue (← scanDirective)

/-- The mark of a document start or end closes all blocks. -/
def fetchDocumentMarker (token : Token) : Scan Unit := do
  unrollIndent (-1)
  dropPendingKey
  forbidKey
  let start ← mark
  skipContent 3
  push ⟨start, ← mark⟩ token

/-- A flow collection may be a key itself. In it the indentation of the block around it counts. -/
def fetchFlowStart (isMapping : Bool) : Scan Unit := do
  savePendingKey
  let start ← mark
  rollProvisional
  enterFlow
  allowKey
  skipContent 1
  modify fun s =>
    if isMapping then { s with flowMappingStarted := true }
    else { s with pairs := false :: s.pairs }
  let _ ← skipToLineEnd true
  push ⟨start, ← mark⟩ (if isMapping then .flowMappingStart else .flowSequenceStart)

/-- Nothing right behind a flow collection starts a key. -/
def fetchFlowEnd (isMapping : Bool) : Scan Unit := do
  dropPendingKey
  leaveFlow
  forbidKey
  if !isMapping then
    endPair
    modify fun s => { s with pairs := s.pairs.drop 1 }
  let start ← mark
  skipContent 1
  let _ ← skipToLineEnd true
  modify fun s => if 0 < s.flowLevel then { s with adjacentValueAt := s.mark.index } else s
  push ⟨start, ← mark⟩ (if isMapping then .flowMappingEnd else .flowSequenceEnd)

/-- A comma; a key may follow. -/
def fetchFlowEntry : Scan Unit := do
  dropPendingKey
  allowKey
  endPair
  let start ← mark
  skipContent 1
  let _ ← skipToLineEnd true
  push ⟨start, ← mark⟩ .flowEntry

/-- Whether a token is a property of a node. -/
def isProperty : Token → Bool
  | .anchor _ | .tag _ _ => true
  | _ => false

/-- The dash of an item, which may open a sequence. -/
def fetchBlockEntry : Scan Unit := do
  let s ← get
  if 0 < s.flowLevel then fail .blockEntryInFlow
  if !s.keyAllowed then fail .blockEntryNotAllowed
  match s.queue.getLast? with
  | some last =>
    if isProperty last.item ∧ s.mark.column = 0 ∧ last.span.start.column = 0 ∧ -1 < s.indent then
      failAt last.span.start .anchorIndentation
  | none => pure ()
  skipContent 1
  rollIndent s.mark.column none .blockSequenceStart s.mark
  let skipped ← skipToLineEnd true
  if skipped.tab ∧ (← peek) = '-' ∧ isSpaceOrEnd (← peekAt 1) then fail .tabAfterBlockEntry
  let _ ← skipToLineEnd false
  if isBreak (← peek) ∨ isFlow (← peek) then rollProvisional
  dropPendingKey
  allowKey
  push (Span.empty (← mark)) .blockEntry

/-- The mark of a key, which may open a mapping. -/
def fetchKey : Scan Unit := do
  let start ← mark
  let inFlow := 0 < (← get).flowLevel
  if inFlow then modify fun s => { s with flowMappingStarted := true }
  else
    if !(← get).keyAllowed then fail .keyNotAllowed
    rollIndent start.column none .blockMappingStart start
  dropPendingKey
  if inFlow then forbidKey else allowKey
  skipContent 1
  skipAfterKeyIndicator (← fuel) false
  if (← peek) = '\t' then fail .tabAfterKeyIndicator
  push ⟨start, ← mark⟩ .key

/-- A `:` that ends a key. If a key is pending, the tokens that announce it go in front of it. -/
def fetchValue : Scan Unit := do
  let s ← get
  let pending := s.keys.headD PendingKey.none
  let start := s.mark
  let isPair := !s.pairs.isEmpty && !s.flowMappingStarted
  if isPair then modify fun s => { s with pairs := true :: s.pairs.drop 1 }
  skipContent 1
  if (← peek) = '\t' then
    let skipped ← skipToLineEnd true
    let c ← peek
    if !skipped.space ∧ (c = '-' ∨ isNameChar c) then fail .tabAfterValue
  if pending.possible then
    insertAt pending.token pending.mark .key
    if isPair then
      if pending.mark.line < start.line then failAt start .misplacedColon
      insertAt pending.token pending.mark .flowMappingStart
    rollIndent pending.mark.column (some pending.token) .blockMappingStart pending.mark
    rollProvisional
    modify fun s => { s with keys := { pending with possible := false } :: s.keys.drop 1 }
    forbidKey
  else
    if isPair then push (Span.empty start) .flowMappingStart
    if s.flowLevel = 0 then
      if !s.keyAllowed then failAt start .valueNotAllowed
      rollIndent start.column none .blockMappingStart start
    rollProvisional
    if s.flowLevel = 0 then allowKey else forbidKey
  push (Span.empty start) .value

/-- A `:` inside brackets that is not followed by white space. -/
def fetchFlowValue : Scan Unit := do
  let s ← get
  let next ← peekAt 1
  if s.mark.index ≠ s.adjacentValueAt ∧ (next = '[' ∨ next = '\x7b') then fail .valueBeforeBracket
  fetchValue

/-- A quoted scalar. Right behind it a colon needs no space in a flow collection. -/
def fetchQuoted (single : Bool) : Scan Unit := do
  startsKey
  let token ← scanQuoted single
  skipToToken (← fuel)
  modify fun s => { s with adjacentValueAt := s.mark.index }
  enqueue token

/-- A plain scalar, which may be a key. -/
def fetchPlain : Scan Unit := do
  startsKey
  enqueue (← scanPlain)

/-- A literal or folded scalar; a key may follow. -/
def fetchBlockScalar (folded : Bool) : Scan Unit := do
  savePendingKey
  allowKey
  enqueue (← scanBlock folded)

/-- An anchor or an alias, which may start a key. -/
def fetchAnchor (isAlias : Bool) : Scan Unit := do
  startsKey
  enqueue (← scanAnchor isAlias)

/-- A tag, which may start a key. -/
def fetchTag : Scan Unit := do
  startsKey
  enqueue (← scanTag)

/-- Reads what starts with `c`, which is followed by `next`. -/
def fetchByStart (c next : Char) : Scan Unit := do
  let s ← get
  let block := s.flowLevel == 0
  let free := isSpaceOrEnd next
  if c = '[' then fetchFlowStart false
  else if c = '\x7b' then fetchFlowStart true
  else if c = ']' then fetchFlowEnd false
  else if c = '\x7d' then fetchFlowEnd true
  else if c = ',' then fetchFlowEntry
  else if c = '-' ∧ free then fetchBlockEntry
  else if c = '?' ∧ free then fetchKey
  else if c = ':' ∧ free then fetchValue
  else if c = ':' ∧ !block ∧ (isFlow next ∨ s.mark.index = s.adjacentValueAt) then fetchFlowValue
  else if c = '*' then fetchAnchor true
  else if c = '&' then fetchAnchor false
  else if c = '!' then fetchTag
  else if c = '|' ∧ block then fetchBlockScalar false
  else if c = '>' ∧ block then fetchBlockScalar true
  else if c = '\'' then fetchQuoted true
  else if c = '"' then fetchQuoted false
  else if c = '%' ∨ c = '@' ∨ c.toNat = 0x60 then fail (.unexpectedCharacter c)
  else fetchPlain

/-- Reads on until at least one token more waits, or a line of the document has changed what can
be handed out. -/
def fetch : Scan Unit := do
  skipToToken (← fuel)
  dropStaleKeys
  unrollIndent (← mark).column
  let c ← peek
  let atLineStart := (← mark).column == 0
  if isEnd c then fetchStreamEnd
  else if atLineStart && c == '%' then fetchDirective
  else if atLineStart && (← atDocumentStart) then fetchDocumentMarker .documentStart
  else if atLineStart && (← atDocumentEnd) then
    fetchDocumentMarker .documentEnd
    let _ ← skipToLineEnd true
    if !isBreakOrEnd (← peek) then fail .contentAfterDocumentEnd
  else if (← mark).column < (← get).indent then fail .invalidIndentation
  else fetchByStart c (← peekAt 1)

/-- Whether the token in front of the queue has to wait: there is none, or it may still turn out
to start a key. -/
def mustFetch : Scan Bool := do
  if (← get).queue.isEmpty then return true
  dropStaleKeys
  let s ← get
  return s.keys.any fun key => key.possible && key.token == s.taken

end Scan

/-- Tokens, and the fault that stands behind them. -/
structure TokenStream where
  tokens : List (Located Token)
  fault : Option SyntaxError
  deriving Repr

namespace Token

/-- Hands out tokens as soon as they can be, onto those in `handed`, last one first. -/
def scanFrom : (fuel : Nat) → Scanner → (handed : List (Located Token)) → TokenStream
  | 0, _, handed => ⟨handed.reverse, none⟩
  | fuel + 1, s, handed =>
    match Scan.mustFetch.run s with
    | .error e => ⟨handed.reverse, some e⟩
    | .ok (true, s) =>
      match Scan.fetch.run s with
      | .error e => ⟨handed.reverse, some e⟩
      | .ok ((), s) => scanFrom fuel s handed
    | .ok (false, s) =>
      match s.queue with
      | [] => ⟨handed.reverse, none⟩
      | token :: queue =>
        if token.item = .streamEnd then ⟨(token :: handed).reverse, none⟩
        else scanFrom fuel { s with queue := queue, taken := s.taken + 1 } (token :: handed)

/-- The tokens of a document. No character takes part in more than ten tokens or rounds. -/
def scan (document : Text) : TokenStream :=
  scanFrom (10 * document.length + 10) (Scanner.start document) []

end Token

end YamlEdit
