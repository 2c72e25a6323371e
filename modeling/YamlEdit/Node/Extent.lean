import YamlEdit.Node.Basic

/-!
# Where a node is written

The marks of an event say roughly where a node stands: past its properties, or at the next token.
The functions here look at the text around a mark and find the exact place. They take and return
byte offsets.
-/

namespace YamlEdit

namespace Extent

/-- The indicators that end a name inside brackets. -/
def isFlowIndicator (c : Char) : Bool :=
  c == ',' || c == '[' || c == ']' || c == '\x7b' || c == '\x7d'

/-- A character that an anchor's name, a tag or an alias can hold. -/
def isNameChar (c : Char) : Bool := !Text.isBlank c && !isFlowIndicator c

/-- The marks that start an anchor or a tag. -/
def isPropertyMark (c : Char) : Bool := c == '&' || c == '!'

/-- The bytes of the anchors and tags that `t` starts with, and of the blanks after them. -/
def propertiesSize : (fuel : Nat) → Text → Nat
  | 0, _ => 0
  | fuel + 1, t =>
    if isPropertyMark (t.headD ' ') then
      let word := t.takeWhile isNameChar
      let rest := t.dropWhile isNameChar
      let isGap := fun c : Char => c == ' ' || c == '\t'
      Text.size word + Text.size (rest.takeWhile isGap) +
        propertiesSize fuel (rest.dropWhile isGap)
    else 0

/-- Steps over the properties in front of a node. -/
def skipProperties (source : Text) (place : Nat) : Except BadOffset Nat := do
  let rest ← source.dropBytes place
  return place + propertiesSize rest.length rest

/-! ## Quoted scalars -/

/-- The text after the closing quote, for the text after an opening `'`. A quote is written
twice. -/
def afterSingleQuoted : Text → Option Text
  | [] => none
  | [c] => if c = '\'' then some [] else none
  | c :: d :: t =>
    if c = '\'' then if d = '\'' then afterSingleQuoted t else some (d :: t)
    else afterSingleQuoted (d :: t)

/-- The text after the closing quote, for the text after an opening `"`. A backslash takes the
next character with it. -/
def afterDoubleQuoted : Text → Option Text
  | [] => none
  | c :: t =>
    if c = '"' then some t
    else if c = '\\' then
      match t with
      | [] => none
      | _ :: t => afterDoubleQuoted t
    else afterDoubleQuoted t

/-- Where the quoted scalar that starts at `start` ends, if there is a closed one. -/
def quotedEnd (source : Text) (start : Nat) : Except BadOffset (Option Nat) := do
  let after? :=
    match ← source.dropBytes start with
    | '\'' :: t => afterSingleQuoted t
    | '"' :: t => afterDoubleQuoted t
    | _ => none
  return after?.map fun rest => Text.size source - Text.size rest

/-! ## Missing values -/

/-- The indicators that may stand in front of a node in block style. -/
def isIndicator (c : Char) : Bool := c == ':' || c == '-' || c == '?'

/-- The end of the indicator that a missing value belongs to: the last thing in front of `place`,
or a `:` right at it. -/
def indicatorEnd (source : Text) (place : Nat) : Except BadOffset (Option Nat) := do
  let cut ← source.cutAt place
  let head := cut.before.dropWhile Text.isBlank
  if isIndicator (head.headD ' ') then return some (Text.size head)
  match cut.after with
  | ':' :: [] => return some (place + 1)
  | ':' :: c :: _ => return if isNameChar c then none else some (place + 1)
  | _ => return none

/-! ## Block scalars -/

/-- The marks that start the header of a block scalar. -/
def isHeaderMark (c : Char) : Bool := c == '|' || c == '>'

/-- The line up to a comment: a `#` after white space. -/
def beforeComment : (spaced : Bool) → Text → Text
  | _, [] => []
  | spaced, c :: t =>
    if c = '#' ∧ spaced then [] else c :: beforeComment (Text.isBlank c) t

/-- The last place, counted in bytes, where a character satisfies `p`; `before` is the text,
read from its end. -/
def lastOffset? (p : Char → Bool) : (before : Text) → Option Nat
  | [] => none
  | c :: t => if p c then some (Text.size t) else lastOffset? p t

/-- Where the word that ends a text starts: one byte after the last blank. -/
def lastWordStart (blank : Char → Bool) (before : Text) : Nat :=
  match lastOffset? blank before with
  | some place => place + 1
  | none => 0

/-- Where the header of the block scalar whose content starts at `start` is. -/
def blockHeader (source : Text) (start : Nat) : Except BadOffset (Option Nat) := do
  let cut ← source.cutAt start
  if isHeaderMark (cut.after.headD ' ') then return some start
  let head := cut.before.dropWhile Text.isBlank
  let line := (head.takeWhile (· ≠ '\n')).reverse
  let lineStart := Text.size head - Text.size line
  let code := Text.trimEnd (beforeComment false line)
  let wordStart := lastWordStart Text.isBlank code.reverse
  match ← code.dropBytes wordStart with
  | [] => return none
  | c :: modifiers =>
    if isHeaderMark c && modifiers.all fun m => m == '+' || m == '-' || Text.isDigit m then
      return some (lineStart + wordStart)
    else return none

/-! ## Block sequences -/

/-- The `-` of the sequence item that starts at `place`. Anchors and tags may stand between the
two. -/
def itemMarkerFrom (source : Text) : (fuel : Nat) → (place : Nat) → Except BadOffset (Option Nat)
  | 0, _ => pure none
  | fuel + 1, place => do
    let cut ← source.cutAt place
    let head := cut.before.dropWhile Text.isBlank
    if head.headD ' ' = '-' then return some (Text.size head - 1)
    let wordStart := lastWordStart Text.isBlank head
    let word ← Text.dropBytes head.reverse wordStart
    if isPropertyMark (word.headD ' ') then itemMarkerFrom source fuel wordStart
    else return none

/-- The place of the dash in front of an item, if there is one. -/
def itemMarker (source : Text) (place : Nat) : Except BadOffset (Option Nat) :=
  itemMarkerFrom source (source.length + 1) place

/-! ## Anchors and aliases -/

/-- What separates the properties of a node from what is in front of them. -/
def isPropertyBoundary (c : Char) : Bool :=
  Text.isAsciiBlank c || c == '[' || c == '\x7b' || c == ','

/-- The name of the anchor that is the last property of a text, or the last but one before a
tag; `before` is the text, read from its end. -/
def labelBefore : (tries : Nat) → (before : Text) → Option Text
  | 0, _ => none
  | tries + 1, before =>
    let head := before.dropWhile Text.isBlank
    let word := (head.takeWhile (!isPropertyBoundary ·)).reverse
    match word with
    | '&' :: name => if name.isEmpty then none else some name
    | '!' :: _ => labelBefore tries (head.dropWhile (!isPropertyBoundary ·))
    | _ => none

/-- The name written as `&name` at the start of a node or in front of it. -/
def anchorLabel (source : Text) (start : Nat) : Except BadOffset (Option Text) := do
  let cut ← source.cutAt start
  match cut.after with
  | '&' :: rest =>
    let name := rest.takeWhile isNameChar
    return if name.isEmpty then none else some name
  | _ => return labelBefore 2 cut.before

/-- Where the alias that starts at `start` ends. -/
def aliasEnd (source : Text) (start : Nat) : Except BadOffset (Option Nat) := do
  match ← source.dropBytes start with
  | '*' :: rest => return some (start + 1 + Text.size (rest.takeWhile isNameChar))
  | _ => return none

/-! ## Flow collections -/

/-- What may stand between the last entry of a flow collection and its closing bracket, comments
aside. -/
def isSeparator (c : Char) : Bool :=
  c == ' ' || c == '\t' || c == '\r' || c == '\n' || c == ','

/-- The text after the closing bracket, if only separators and comments come before it. -/
def afterCloser (closer : Char) : (inComment : Bool) → Text → Option Text
  | _, [] => none
  | true, c :: t => afterCloser closer (c != '\n') t
  | false, c :: t =>
    if isSeparator c then afterCloser closer false t
    else if c = '#' then afterCloser closer true t
    else if c = closer then some t
    else none

/-- Where the flow collection ends whose last entry ends at `place`: after its closing bracket,
or right there if no bracket follows. -/
def flowEnd (source : Text) (place : Nat) (closer : Char) : Except BadOffset Nat := do
  let rest ← source.dropBytes place
  return match afterCloser closer false rest with
    | some after => place + (Text.size rest - Text.size after)
    | none => place

end Extent

end YamlEdit
