import YamlEdit.Value.Source.Property

/-!
# The tokens of a value
-/

namespace YamlEdit.Value.Source

namespace Scan

/-! ## Fetching one token -/

/-- The end of the text closes all blocks. -/
def fetchStreamEnd : Scan Unit := do
  modify fun s =>
    if s.mark.column = 0 then s
    else { s with mark := { s.mark with column := 0, line := s.mark.line + 1 } }
  unrollIndent (-1)
  dropPendingKey
  setKeyAllowed false
  push (Span.empty (← mark)) .streamEnd

/-- Closes all block collections in front of something that stands between documents. -/
def leaveDocument : Scan Unit := do
  unrollIndent (-1)
  dropPendingKey
  setKeyAllowed false

/-- Adds a token that has been scanned. -/
def pushToken (token : Located Token) : Scan Unit := push token.span token.item

/-- A token of a fixed number of characters. -/
def fetchMarker (size : Nat) (token : Token) : Scan Unit := do
  let start ← mark
  skip size
  push ⟨start, ← mark⟩ token

/-- A flow collection may be a key itself. -/
def fetchFlowStart (token : Token) : Scan Unit := do
  savePendingKey
  enterFlow
  setKeyAllowed true
  fetchMarker 1 token

/-- Nothing right behind a flow collection starts a key. -/
def fetchFlowEnd (token : Token) : Scan Unit := do
  dropPendingKey
  leaveFlow
  setKeyAllowed false
  fetchMarker 1 token

/-- A comma; a key may follow. -/
def fetchFlowEntry : Scan Unit := do
  dropPendingKey
  setKeyAllowed true
  fetchMarker 1 .flowEntry

/-- Opens a block collection for an indicator outside brackets. -/
def openBlock (token : Token) (problem : Problem) : Scan Unit := do
  let s ← get
  if s.flowLevel = 0 then
    if !s.keyAllowed then fail problem
    rollIndent s.mark.column none token s.mark

/-- The dash of an item; a key may follow. -/
def fetchBlockEntry : Scan Unit := do
  openBlock .blockSequenceStart .entryNotAllowed
  dropPendingKey
  setKeyAllowed true
  fetchMarker 1 .blockEntry

/-- The mark of a key; a key without a mark may follow it in block style only. -/
def fetchKey : Scan Unit := do
  openBlock .blockMappingStart .keyNotAllowed
  dropPendingKey
  setKeyAllowed ((← get).flowLevel == 0)
  fetchMarker 1 .key

/-- The mark of a value. A pending key becomes a key, in front of which a mapping may start. -/
def fetchValue : Scan Unit := do
  match (← get).keys with
  | pending :: outer =>
    if pending.possible then
      insertAt pending.token pending.mark .key
      rollIndent pending.mark.column (some pending.token) .blockMappingStart pending.mark
      modify fun s => { s with keys := { pending with possible := false } :: outer }
      setKeyAllowed false
    else
      openBlock .blockMappingStart .valueNotAllowed
      setKeyAllowed ((← get).flowLevel == 0)
  | [] => pure ()
  fetchMarker 1 .value

/-- A token that may start a key, after which none may start. -/
def fetchKeyStart (scan : Scan (Located Token)) : Scan Unit := do
  savePendingKey
  setKeyAllowed false
  pushToken (← scan)

/-- A literal or folded scalar, which is never a key. -/
def fetchBlock (folded : Bool) : Scan Unit := do
  dropPendingKey
  setKeyAllowed true
  pushToken (← scanBlock folded)

/-- A character that starts a plain scalar. -/
def startsPlain (inFlow : Bool) (c next : Char) : Bool :=
  !(isGap c || "-?:,[]\x7b\x7d#&*!|>'\"%@".toList.contains c || c.toNat == 0x60) ||
    (c == '-' && !isBlank next) || (!inFlow && (c == '?' || c == ':') && !isGap next)

/-- Fetches a token that starts with `c`, which is followed by `next`. -/
def fetchByStart (c next : Char) : Scan Unit := do
  let inFlow := 0 < (← get).flowLevel
  if c = '[' then fetchFlowStart .flowSequenceStart
  else if c = '\x7b' then fetchFlowStart .flowMappingStart
  else if c = ']' then fetchFlowEnd .flowSequenceEnd
  else if c = '\x7d' then fetchFlowEnd .flowMappingEnd
  else if c = ',' then fetchFlowEntry
  else if c = '-' ∧ isGap next then fetchBlockEntry
  else if c = '?' ∧ (inFlow ∨ isGap next) then fetchKey
  else if c = ':' ∧ (inFlow ∨ isGap next) then fetchValue
  else if c = '*' then fetchKeyStart (scanAnchor true)
  else if c = '&' then fetchKeyStart (scanAnchor false)
  else if c = '!' then fetchKeyStart scanTag
  else if c = '|' ∧ !inFlow then fetchBlock false
  else if c = '>' ∧ !inFlow then fetchBlock true
  else if c = '\'' then fetchKeyStart (scanQuoted true)
  else if c = '"' then fetchKeyStart (scanQuoted false)
  else if startsPlain inFlow c next then fetchKeyStart scanPlain
  else failIn .scanToken (← mark) .cannotStartToken

/-- Steps over white space, comments and line breaks. A byte order mark may start a line. -/
def skipToToken : (fuel : Nat) → Scan Unit
  | 0 => pure ()
  | fuel + 1 => do
    if (← mark).column = 0 ∧ (← peek) = '\uFEFF' then skip 1
    let s ← get
    let tabs := 0 < s.flowLevel || !s.keyAllowed
    let _ ← takeLine fun c => c == ' ' || (tabs && c == '\t')
    skipComment
    if isBreak (← peek) then
      let _ ← readBreak
      if s.flowLevel = 0 then setKeyAllowed true
      skipToToken fuel

/-- The next tokens, chosen by the character in front. -/
def fetch : Scan Unit := do
  skipToToken (← fuel)
  dropStaleKeys
  unrollIndent (← mark).column
  let c ← peek
  if c = '\x00' then fetchStreamEnd
  else if (← mark).column = 0 ∧ c = '%' then
    leaveDocument
    pushToken (← scanDirective)
  else if ← atDocumentMarker '-' then
    leaveDocument
    fetchMarker 3 .documentStart
  else if ← atDocumentMarker '.' then
    leaveDocument
    fetchMarker 3 .documentEnd
  else fetchByStart c (← peekAt 1)

/-- Whether the token in front of the queue has to wait: there is none, or it may still turn out
to start a key. -/
def mustFetch : Scan Bool := do
  if (← get).queue.isEmpty then return true
  dropStaleKeys
  let s ← get
  return s.keys.any fun key => key.possible && key.token == s.taken

end Scan

/-- Tokens, and the complaint that stands behind them. -/
structure TokenStream where
  tokens : List (Located Token)
  complaint : Option Complaint
  deriving Repr

/-- Hands out tokens as soon as they can be, onto those in `handed`, last one first. -/
def scanFrom : (fuel : Nat) → Scanner → (handed : List (Located Token)) → TokenStream
  | 0, _, handed => ⟨handed.reverse, none⟩
  | fuel + 1, s, handed =>
    match Scan.mustFetch.run s with
    | .error c => ⟨handed.reverse, some (s.orIllegal c)⟩
    | .ok (true, s) =>
      match Scan.fetch.run s with
      | .error c => ⟨handed.reverse, some (s.orIllegal c)⟩
      | .ok ((), s) =>
        match s.atIllegal? with
        | some c => ⟨handed.reverse, some c⟩
        | none => scanFrom fuel s handed
    | .ok (false, s) =>
      match s.queue with
      | [] => ⟨handed.reverse, none⟩
      | token :: queue =>
        if token.item = .streamEnd then ⟨(token :: handed).reverse, none⟩
        else scanFrom fuel { s with queue := queue, taken := s.taken + 1 } (token :: handed)

/-- The tokens of a text. No character takes part in more than ten tokens or rounds. -/
def scan (text : Text) : TokenStream :=
  scanFrom (10 * text.length + 10) (Scanner.start (readable text)) []

end YamlEdit.Value.Source
